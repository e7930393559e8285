import Mathlib.Data.List.Dedup
import Mathlib.Logic.Function.Basic
import MongoServer.Base.NamespaceString
import MongoServer.Base.Status
import MongoServer.Bson.Elements

/-!
The graph of the references between views. A view that is created or modified is inserted first
and validated then: from its node the graph is searched downwards for cycles and upwards, and the
heights and sizes that both searches find are added up.
-/
namespace MongoServer
open Function

/-- The order in which the elements of a hash set are visited, each of them once. -/
structure IterationOrder where
  order : List NamespaceString → List NamespaceString
  mem_order : ∀ set ns, ns ∈ order set ↔ ns ∈ set
  nodup_order : ∀ set, (order set).Nodup

/-- The element that was inserted last comes first. -/
def IterationOrder.lastFirst : IterationOrder where
  order := List.dedup
  mem_order := fun _ _ => List.mem_dedup
  nodup_order := List.nodup_dedup

structure ViewDefinition (Collator : Type) where
  name : NamespaceString
  viewOn : NamespaceString
  pipeline : List BSONObj
  defaultCollator : Option Collator

variable {Collator : Type}

def collatorsMatch [DecidableEq Collator] (lhs rhs : Option Collator) : Bool := lhs = rhs

def pipelineSize (pipeline : List BSONObj) : ℤ := (pipeline.map fun obj => (obj.objsize : ℤ)).sum

namespace ViewGraph

def kMaxViewPipelineSizeBytes : ℤ := 16 * 1000 * 1000

def kMaxViewDepth : ℕ := 20

/-- The node of a namespace. A node whose collator is set is that of a view. -/
structure Node (Collator : Type) where
  children : List NamespaceString := []
  parents : List NamespaceString := []
  collator : Option (Option Collator) := none
  size : ℤ := 0

def Node.isView (node : Node Collator) : Except Failure Bool :=
  if node.children.isEmpty = node.collator.isNone then .ok (!node.children.isEmpty)
  else .error .invariant

structure NodeStats where
  checked : Bool := false
  height : ℤ := 0
  cumulativeSize : ℤ := 0

abbrev StatsMap := NamespaceString → NodeStats

end ViewGraph

/-- The nodes by their namespaces. A namespace that is not in the graph has the default node. -/
abbrev ViewGraph (Collator : Type) := NamespaceString → ViewGraph.Node Collator

namespace ViewGraph

def clear : ViewGraph Collator := fun _ => {}

def addReference (viewNss : NamespaceString) (graph : ViewGraph Collator)
    (childNss : NamespaceString) : ViewGraph Collator :=
  let graph := update graph viewNss
    { graph viewNss with children := (graph viewNss).children.insert childNss }
  update graph childNss { graph childNss with parents := (graph childNss).parents.insert viewNss }

def insertWithoutValidating (graph : ViewGraph Collator) (view : ViewDefinition Collator)
    (refs : List NamespaceString) (size : ℤ) : Except Failure (ViewGraph Collator) :=
  let node := graph view.name
  if node.children ≠ [] ∨ node.collator.isSome then .error .invariant
  else
    .ok (refs.foldl (addReference view.name) (update graph view.name
      { node with size := size, collator := some view.defaultCollator }))

def removeParent (viewNss : NamespaceString) (graph : ViewGraph Collator)
    (childNss : NamespaceString) : ViewGraph Collator :=
  let node := { graph childNss with
    parents := (graph childNss).parents.filter fun parent => parent ≠ viewNss }
  update graph childNss (if node.parents = [] ∧ node.children = [] then {} else node)

def remove (graph : ViewGraph Collator) (viewNss : NamespaceString) : ViewGraph Collator :=
  let node := { graph viewNss with
    children := (graph viewNss).children.filter fun child => child ≠ viewNss
    parents := (graph viewNss).parents.filter fun parent => parent ≠ viewNss }
  let graph := node.children.foldl (removeParent viewNss) (update graph viewNss node)
  let node := { node with children := [], collator := none }
  update graph viewNss (if node.parents = [] then {} else node)

def depthLimitExceeded : Failure :=
  .status ⟨ErrorCodes.ViewDepthLimitExceeded, "View depth limit exceeded; maximum depth is 20"⟩

def collationMismatch (nss otherNss : NamespaceString) : Failure :=
  .status ⟨ErrorCodes.OptionNotSupportedOnView, "View " ++ nss.ns ++
    " has a collation that does not match the collation of view " ++ otherNss.ns⟩

section Validation

variable [DecidableEq Collator] (iteration : IterationOrder) (graph : ViewGraph Collator)

/-- What keeps two nodes, one of which refers to the other, from having different collations. -/
def checkCollators (currentNss otherNss : NamespaceString) : Except Failure Unit := do
  let otherIsView ← (graph otherNss).isView
  if otherIsView ∧
      ¬ collatorsMatch (graph currentNss).collator.join (graph otherNss).collator.join then
    .error (collationMismatch currentNss otherNss)
  else .ok ()

/-- One round of the loop over the parents of a node, with the greatest height and size so far. -/
def visitParent (validateParent : NamespaceString → StatsMap → Except Failure StatsMap)
    (currentNss : NamespaceString) (loop : StatsMap × ℤ × ℤ) (parentNss : NamespaceString) :
    Except Failure (StatsMap × ℤ × ℤ) := do
  checkCollators graph currentNss parentNss
  let statsMap ← (if (loop.1 parentNss).checked then .ok loop.1
    else validateParent parentNss loop.1)
  .ok (statsMap, max loop.2.1 (statsMap parentNss).height,
    max loop.2.2 (statsMap parentNss).cumulativeSize)

/-- The search through the views that refer to a node. The first argument counts how many levels
are left, so it is `kMaxViewDepth + 1` less the depth of the source. -/
def validateParents : ℕ → NamespaceString → StatsMap → Except Failure StatsMap
  | 0, _, _ => .error depthLimitExceeded
  | levels + 1, currentNss, statsMap => do
      let (statsMap, maxHeightOfParents, maxSizeOfParents) ←
        (iteration.order (graph currentNss).parents).foldlM
          (visitParent graph (fun parentNss stats => validateParents levels parentNss stats)
            currentNss) (statsMap, 0, 0)
      let size := (statsMap currentNss).cumulativeSize +
        (maxSizeOfParents + (graph currentNss).size)
      if size > kMaxViewPipelineSizeBytes then
        .error (.status ⟨ErrorCodes.ViewPipelineMaxSizeExceeded,
          "View pipeline is too large and exceeds the maximum size of 16000000 bytes"⟩)
      else .ok (update statsMap currentNss ⟨true, maxHeightOfParents + 1, size⟩)

/-- The error for a cycle; the namespaces on the way are listed from the last one back. -/
def cycleDetected (traversalIds : List NamespaceString) : Failure :=
  .status ⟨ErrorCodes.GraphContainsCycle, "View cycle detected: " ++
    ((traversalIds.head?.map NamespaceString.ns).getD "") ++
    String.join (traversalIds.map fun nss => " => " ++ nss.ns)⟩

/-- One round of the loop over the children of a node. A child that was checked before is left
out. -/
def visitChild (validateChild : NamespaceString → StatsMap → Except Failure StatsMap)
    (currentNss : NamespaceString) (loop : StatsMap × ℤ × ℤ) (childNss : NamespaceString) :
    Except Failure (StatsMap × ℤ × ℤ) :=
  if (loop.1 childNss).checked then .ok loop
  else do
    checkCollators graph currentNss childNss
    let statsMap ← validateChild childNss loop.1
    .ok (statsMap, max loop.2.1 (statsMap childNss).height,
      max loop.2.2 (statsMap childNss).cumulativeSize)

/-- The search through what a node refers to, from the starting node on. -/
def validateChildren (startingNss : NamespaceString) :
    ℕ → NamespaceString → List NamespaceString → StatsMap → Except Failure StatsMap
  | 0, currentNss, traversalIds, _ =>
      if currentNss = startingNss then .error (cycleDetected (currentNss :: traversalIds))
      else .error depthLimitExceeded
  | levels + 1, currentNss, traversalIds, statsMap =>
      if levels < kMaxViewDepth ∧ currentNss = startingNss then
        .error (cycleDetected (currentNss :: traversalIds))
      else do
        let (statsMap, maxHeightOfChildren, maxSizeOfChildren) ←
          (iteration.order (graph currentNss).children).foldlM
            (visitChild graph (fun childNss stats =>
              validateChildren startingNss levels childNss (currentNss :: traversalIds) stats)
              currentNss) (statsMap, 0, 0)
        .ok (update statsMap currentNss ⟨true, maxHeightOfChildren + 1,
          (statsMap currentNss).cumulativeSize + (maxSizeOfChildren + (graph currentNss).size)⟩)

def validate (viewNss : NamespaceString) : Except Failure Unit := do
  let statsMap ← validateChildren iteration graph viewNss (kMaxViewDepth + 1) viewNss [] fun _ => {}
  let childrenHeight := (statsMap viewNss).height - 1
  let childrenSize := (statsMap viewNss).cumulativeSize
  let statsMap ← validateParents iteration graph (kMaxViewDepth + 1) viewNss fun _ => {}
  let parentsHeight := (statsMap viewNss).height
  let diameter := parentsHeight + childrenHeight - 1
  if diameter > kMaxViewDepth then .error depthLimitExceeded
  else
    let parentsSize := (statsMap viewNss).cumulativeSize
    let pipelineTotalSize := parentsSize + childrenSize - (graph viewNss).size
    if pipelineTotalSize > kMaxViewPipelineSizeBytes then
      .error (.status ⟨ErrorCodes.ViewPipelineMaxSizeExceeded,
        "Operation would result in a resolved view pipeline that exceeds the maximum size of " ++
        "16000000 bytes"⟩)
    else .ok ()

/-- The graph is that without the view again if it cannot be validated. -/
def insertAndValidate (view : ViewDefinition Collator) (refs : List NamespaceString) (size : ℤ) :
    Except Failure Unit × ViewGraph Collator :=
  match insertWithoutValidating graph view refs size with
  | .error failure => (.error failure, graph)
  | .ok inserted =>
      match validate iteration inserted view.name with
      | .error failure => (.error failure, remove inserted view.name)
      | .ok () => (.ok (), inserted)

end Validation

end ViewGraph
end MongoServer
