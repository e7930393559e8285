import MongoServer.Views.ViewGraph

/-!
The catalog of views: a map of the definitions, and the graph of their references, which is built
again from the map whenever a committed change has been written to `system.views`.
-/
namespace MongoServer

/-- What the catalog relies on: the parsers of collations and pipelines, the order in which sets
are visited, and whether the server refuses views for compatibility with older versions. -/
structure ViewEnvironment (Collator : Type) where
  makeFromBSON : BSONObj → Except Status Collator
  toBSON : Collator → BSONObj
  getInvolvedNamespaces : NamespaceString → List BSONObj → List NamespaceString
  parsePipeline : List BSONObj → Option Collator → Except Status Unit
  iteration : IterationOrder
  viewsNotSupported : Bool

variable {Collator : Type}

abbrev ViewMap (Collator : Type) := List (ViewDefinition Collator)

namespace ViewMap

variable (viewMap : ViewMap Collator)

def find (nss : NamespaceString) : Option (ViewDefinition Collator) :=
  viewMap.find? fun view => view.name = nss

def erase (nss : NamespaceString) : ViewMap Collator :=
  viewMap.filter fun view => view.name ≠ nss

def assign (view : ViewDefinition Collator) : ViewMap Collator :=
  view :: erase viewMap view.name

end ViewMap

structure ViewCatalog (Collator : Type) where
  viewMap : ViewMap Collator
  viewGraph : ViewGraph Collator
  viewGraphNeedsRefresh : Bool

namespace ViewCatalog

def empty : ViewCatalog Collator := ⟨[], ViewGraph.clear, true⟩

/-- What is called when a change of `system.views` has been committed. -/
def invalidate (catalog : ViewCatalog Collator) : ViewCatalog Collator :=
  { catalog with viewGraphNeedsRefresh := true }

end ViewCatalog

/-- A call in progress: the catalog, and what is to be done when the unit of work is committed or
rolled back. -/
structure ViewUnitOfWork (Collator : Type) where
  catalog : ViewCatalog Collator
  onCommit : List (ViewCatalog Collator → ViewCatalog Collator) := []
  onRollback : List (ViewCatalog Collator → ViewCatalog Collator) := []

/-- Handlers of a rollback run in the reverse order of their registration. -/
def ViewUnitOfWork.finish (run : Except Failure Unit × ViewUnitOfWork Collator) :
    ViewCatalog Collator :=
  match run.1 with
  | .ok () => run.2.onCommit.foldl (fun catalog handler => handler catalog) run.2.catalog
  | .error _ =>
      run.2.onRollback.reverse.foldl (fun catalog handler => handler catalog) run.2.catalog

namespace ViewCatalog

variable [DecidableEq Collator] (env : ViewEnvironment Collator) (view : ViewDefinition Collator)
  (work : ViewUnitOfWork Collator) (viewName viewOn : NamespaceString)

def parseCollator (collationSpec : BSONObj) : Except Failure (Option Collator) :=
  if collationSpec.isEmpty then .ok none
  else
    match env.makeFromBSON collationSpec with
    | .error status => .error (.status status)
    | .ok collator => .ok (some collator)

def references : List NamespaceString :=
  env.getInvolvedNamespaces view.viewOn view.pipeline ++ [view.viewOn]

def validateCollation (viewMap : ViewMap Collator) (view : ViewDefinition Collator)
    (refs : List NamespaceString) : Except Failure Unit :=
  refs.forM fun potentialViewNss =>
    match viewMap.find potentialViewNss with
    | none => .ok ()
    | some otherView =>
        if collatorsMatch view.defaultCollator otherView.defaultCollator then .ok ()
        else .error (.status ⟨ErrorCodes.OptionNotSupportedOnView, "View " ++
          view.name.ns ++ " has conflicting collation with view " ++
          otherView.name.ns⟩)

def insertKnown (graph : ViewGraph Collator) (view : ViewDefinition Collator) :
    Except Failure (ViewGraph Collator) :=
  match env.parsePipeline view.pipeline view.defaultCollator with
  | .error status => .error (.status status)
  | .ok () => graph.insertWithoutValidating view (references env view) (pipelineSize view.pipeline)

def insertNew (viewMap : ViewMap Collator) (graph : ViewGraph Collator)
    (view : ViewDefinition Collator) : Except Failure Unit × ViewGraph Collator :=
  match env.parsePipeline view.pipeline view.defaultCollator with
  | .error status =>
      (.error (.status ⟨40255, "Invalid pipeline for view " ++ view.name.ns ++ "; " ++
        status.reason⟩), graph)
  | .ok () =>
      match validateCollation viewMap view (references env view) with
      | .error failure => (.error failure, graph)
      | .ok () => ViewGraph.insertAndValidate env.iteration graph view (references env view)
          (pipelineSize view.pipeline)

/-- The graph of all views of the map, if it has to be built again. -/
def refreshGraph : Except Failure Unit × ViewUnitOfWork Collator :=
  if work.catalog.viewGraphNeedsRefresh then
    match work.catalog.viewMap.foldlM (insertKnown env) ViewGraph.clear with
    | .error failure => (.error failure, work)
    | .ok graph =>
        (.ok (), { work with
          catalog := { work.catalog with viewGraph := graph, viewGraphNeedsRefresh := false }
          onRollback := work.onRollback ++
            [fun catalog => { catalog with viewGraphNeedsRefresh := true }] })
  else (.ok (), work)

def upsertIntoGraph : Except Failure Unit × ViewUnitOfWork Collator :=
  match refreshGraph env work with
  | (.error failure, work) => (.error failure, work)
  | (.ok (), work) =>
      let inserted := insertNew env work.catalog.viewMap
        (work.catalog.viewGraph.remove view.name) view
      (inserted.1, { work with catalog := { work.catalog with viewGraph := inserted.2 } })

def createOrUpdateView : Except Failure Unit × ViewUnitOfWork Collator :=
  match upsertIntoGraph env view work with
  | (.error failure, work) => (.error failure, work)
  | (.ok (), work) =>
      (.ok (), {
        catalog := { work.catalog with viewMap := work.catalog.viewMap.assign view }
        -- the observer of the write to `system.views`
        onCommit := work.onCommit ++ [invalidate]
        onRollback := work.onRollback ++ [fun catalog =>
          { catalog with viewMap := catalog.viewMap.erase view.name,
                         viewGraphNeedsRefresh := true }] })

def refuse (code : ℤ) (reason : String) (work : ViewUnitOfWork Collator) :
    Except Failure Unit × ViewUnitOfWork Collator :=
  (.error (.status ⟨code, reason⟩), work)

def createView (pipeline : List BSONObj) (collation : BSONObj) (work : ViewUnitOfWork Collator) :
    Except Failure Unit × ViewUnitOfWork Collator :=
  if env.viewsNotSupported then
    refuse ErrorCodes.CommandNotSupported ("Cannot create view when the " ++
      "featureCompatibilityVersion is 3.2. See " ++
      "http://dochub.mongodb.org/core/3.4-feature-compatibility.") work
  else if viewName.db ≠ viewOn.db then
    refuse ErrorCodes.BadValue
      "View must be created on a view or collection in the same database" work
  else if (work.catalog.viewMap.find viewName).isSome then
    refuse ErrorCodes.NamespaceExists "Namespace already exists" work
  else if ¬ NamespaceString.validCollectionName viewOn.coll then
    refuse ErrorCodes.InvalidNamespace ("invalid name for 'viewOn': " ++ viewOn.coll) work
  else if viewName.isSystem then
    refuse ErrorCodes.InvalidNamespace
      "View name cannot start with 'system.', which is reserved for system namespaces" work
  else
    match parseCollator env collation with
    | .error failure => (.error failure, work)
    | .ok collator => createOrUpdateView env ⟨viewName, viewOn, pipeline, collator⟩ work

def modifyView (pipeline : List BSONObj)
    (work : ViewUnitOfWork Collator) : Except Failure Unit × ViewUnitOfWork Collator :=
  if env.viewsNotSupported then
    refuse ErrorCodes.CommandNotSupported ("Cannot modify view when the " ++
      "featureCompatibilityVersion is 3.2. See " ++
      "http://dochub.mongodb.org/core/3.4-feature-compatibility.") work
  else if viewName.db ≠ viewOn.db then
    refuse ErrorCodes.BadValue
      "View must be created on a view or collection in the same database" work
  else
    match work.catalog.viewMap.find viewName with
    | none =>
        refuse ErrorCodes.NamespaceNotFound ("cannot modify missing view " ++ viewName.ns) work
    | some savedDefinition =>
        if ¬ NamespaceString.validCollectionName viewOn.coll then
          refuse ErrorCodes.InvalidNamespace ("invalid name for 'viewOn': " ++ viewOn.coll) work
        else
          createOrUpdateView env ⟨viewName, viewOn, pipeline, savedDefinition.defaultCollator⟩
            { work with onRollback := work.onRollback ++ [fun catalog =>
                { catalog with viewMap := catalog.viewMap.assign savedDefinition }] }

def dropView (viewName : NamespaceString) (work : ViewUnitOfWork Collator) :
    Except Failure Unit × ViewUnitOfWork Collator :=
  match work.catalog.viewMap.find viewName with
  | none =>
      refuse ErrorCodes.NamespaceNotFound ("cannot drop missing view: " ++ viewName.ns) work
  | some savedDefinition =>
      (.ok (), {
        catalog := { work.catalog with
          viewGraph := work.catalog.viewGraph.remove savedDefinition.name
          viewMap := work.catalog.viewMap.erase viewName }
        onCommit := work.onCommit ++ [invalidate]
        onRollback := work.onRollback ++ [fun catalog =>
          { catalog with viewMap := catalog.viewMap.assign savedDefinition,
                         viewGraphNeedsRefresh := true }] })

end ViewCatalog

structure ResolvedView where
  nss : NamespaceString
  pipeline : List BSONObj
  collation : BSONObj

namespace ViewCatalog

variable (env : ViewEnvironment Collator)

def kSimpleSpec : BSONObj :=
  [(⟨ascii "locale", by decide⟩, .string (ascii "simple"))]

def startsWithCollStats (pipeline : List BSONObj) : Bool :=
  match pipeline with
  | [] => false
  | stage :: _ => (stage.getField (ascii "$collStats")).isSome

/-- The loop over the views, with the number of rounds that are left. -/
def resolveFrom (viewMap : ViewMap Collator) :
    ℕ → NamespaceString → List BSONObj → BSONObj → Except Status ResolvedView
  | 0, _, _, _ => .error ⟨ErrorCodes.ViewDepthLimitExceeded,
      "View depth too deep or view cycle detected; maximum depth is 20"⟩
  | rounds + 1, resolvedNss, resolvedPipeline, collation =>
      match viewMap.find resolvedNss with
      | none =>
          if pipelineSize resolvedPipeline > ViewGraph.kMaxViewPipelineSizeBytes then
            .error ⟨ErrorCodes.ViewPipelineMaxSizeExceeded,
              "View pipeline exceeds maximum size; maximum size is 16000000"⟩
          else .ok ⟨resolvedNss, resolvedPipeline, collation⟩
      | some view =>
          let collation := (view.defaultCollator.map env.toBSON).getD kSimpleSpec
          let resolvedPipeline := view.pipeline ++ resolvedPipeline
          if startsWithCollStats view.pipeline then
            .ok ⟨view.viewOn, resolvedPipeline, collation⟩
          else resolveFrom viewMap rounds view.viewOn resolvedPipeline collation

def resolveView (catalog : ViewCatalog Collator) (nss : NamespaceString) :
    Except Status ResolvedView :=
  resolveFrom env catalog.viewMap ViewGraph.kMaxViewDepth nss [] []

end ViewCatalog

/-- The calls that change the catalog. -/
inductive ViewCall where
  | createView (viewName viewOn : NamespaceString) (pipeline : List BSONObj) (collation : BSONObj)
  | modifyView (viewName viewOn : NamespaceString) (pipeline : List BSONObj)
  | dropView (viewName : NamespaceString)

namespace ViewCatalog

variable [DecidableEq Collator] (env : ViewEnvironment Collator)

def call (work : ViewUnitOfWork Collator) : ViewCall → Except Failure Unit × ViewUnitOfWork Collator
  | .createView viewName viewOn pipeline collation =>
      createView env viewName viewOn pipeline collation work
  | .modifyView viewName viewOn pipeline => modifyView env viewName viewOn pipeline work
  | .dropView viewName => dropView viewName work

def step (catalog : ViewCatalog Collator) (request : ViewCall) : ViewCatalog Collator :=
  ViewUnitOfWork.finish (call env { catalog := catalog } request)

def run (calls : List ViewCall) : ViewCatalog Collator := calls.foldl (step env) empty

end ViewCatalog
end MongoServer
