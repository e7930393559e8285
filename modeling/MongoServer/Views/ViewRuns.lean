import MongoServer.Views.ReadableViews

/-!
Sequences of calls. Every call starts with a graph that has to be built again, so a call that
fails leaves nothing behind, and the views stay readable as long as no definition meets the two
places where the validation is wrong.
-/
namespace MongoServer.ViewCatalog
open ViewGraph Function List

open Relation

variable {Collator : Type} [DecidableEq Collator] {env : ViewEnvironment Collator}
  {viewMap : ViewMap Collator} {catalog : ViewCatalog Collator}

/-- The definition was accepted in the graph of the map. -/
def Accepted (env : ViewEnvironment Collator) (viewMap : ViewMap Collator)
    (view : ViewDefinition Collator) : Prop :=
  ∃ graph, Represents env graph (update viewMap.find view.name (some view)) ∧
    graph.validate env.iteration view.name = .ok ()

theorem accepted_of_insertNew {graph inserted : ViewGraph Collator}
    {view : ViewDefinition Collator} (hgraph : Represents env graph viewMap.find)
    (h : insertNew env viewMap (graph.remove view.name) view = (.ok (), inserted)) :
    Accepted env viewMap view := by
  unfold insertNew at h
  split at h
  · simp at h
  split at h
  · simp at h
  unfold insertAndValidate at h
  split at h
  · simp at h
  · rename_i new hinsert
    split at h
    · simp at h
    · rename_i hvalid
      obtain ⟨-, hnew⟩ := (hgraph.remove view.name).insert hinsert
      rw [update_idem] at hnew
      exact ⟨new, hnew, hvalid⟩

/-- A handler that only puts back what is in the map anyway. -/
def Restores (viewMap : ViewMap Collator)
    (handler : ViewCatalog Collator → ViewCatalog Collator) : Prop :=
  ∀ catalog, catalog.viewMap.find = viewMap.find → (handler catalog).viewMap.find = viewMap.find ∧
    (handler catalog).viewGraphNeedsRefresh = catalog.viewGraphNeedsRefresh

omit [DecidableEq Collator] in
theorem foldl_restores {handlers : List (ViewCatalog Collator → ViewCatalog Collator)}
    (hhandlers : ∀ handler ∈ handlers, Restores viewMap handler) (catalog : ViewCatalog Collator)
    (hcatalog : catalog.viewMap.find = viewMap.find) :
    (handlers.foldl (fun catalog handler => handler catalog) catalog).viewMap.find = viewMap.find ∧
    (handlers.foldl (fun catalog handler => handler catalog) catalog).viewGraphNeedsRefresh =
      catalog.viewGraphNeedsRefresh := by
  induction handlers generalizing catalog with
  | nil => exact ⟨hcatalog, rfl⟩
  | cons handler handlers ih =>
    obtain ⟨hfind, hrefresh⟩ := hhandlers handler mem_cons_self catalog hcatalog
    have hrest := ih (fun other hother => hhandlers other (mem_cons_of_mem _ hother))
      (handler catalog) hfind
    exact ⟨hrest.1, hrest.2.trans hrefresh⟩

/-- An accepted definition is in the map when the call is committed; a call that fails changes
nothing. -/
theorem createOrUpdateView_cases (env : ViewEnvironment Collator)
    (view : ViewDefinition Collator) (work : ViewUnitOfWork Collator)
    (hrefresh : work.catalog.viewGraphNeedsRefresh = true) (hcommit : work.onCommit = [])
    (hrollback : ∀ handler ∈ work.onRollback, Restores work.catalog.viewMap handler) :
    let after := ViewUnitOfWork.finish (createOrUpdateView env view work)
    after.viewGraphNeedsRefresh = true ∧ (after.viewMap.find = work.catalog.viewMap.find ∨
        (Accepted env work.catalog.viewMap view ∧
          after.viewMap = work.catalog.viewMap.assign view)) := by
  have hreverse : ∀ handler ∈ work.onRollback.reverse, Restores work.catalog.viewMap handler :=
    fun handler hhandler => hrollback handler (mem_reverse.mp hhandler)
  simp only [createOrUpdateView, upsertIntoGraph, refreshGraph, hrefresh, if_true]
  cases hbuild : work.catalog.viewMap.foldlM (insertKnown env) clear with
  | error failure =>
    obtain ⟨hfind, hneeds⟩ := foldl_restores hreverse work.catalog rfl
    exact ⟨hneeds.trans hrefresh, .inl hfind⟩
  | ok graph =>
    simp only
    cases hinsert : insertNew env work.catalog.viewMap (graph.remove view.name) view with
    | mk result inserted =>
      cases result with
      | error failure =>
        simp only [ViewUnitOfWork.finish, reverse_append, reverse_singleton,
          singleton_append, foldl_cons]
        obtain ⟨hfind, hneeds⟩ := foldl_restores hreverse ⟨work.catalog.viewMap, inserted, true⟩ rfl
        exact ⟨hneeds, .inl hfind⟩
      | ok =>
        have haccepted := accepted_of_insertNew (represents_refresh hbuild) hinsert
        simp [ViewUnitOfWork.finish, hcommit, invalidate, haccepted]

/-- What a call asks for when it gives a view a definition. -/
def Defines (viewMap : ViewMap Collator) : ViewCall → ViewDefinition Collator → Prop
  | .createView viewName viewOn pipeline _, view =>
      viewMap.find viewName = none ∧ view.name = viewName ∧ view.viewOn = viewOn ∧
        view.pipeline = pipeline
  | .modifyView viewName viewOn pipeline, view =>
      ∃ saved, viewMap.find viewName = some saved ∧
        view = ⟨viewName, viewOn, pipeline, saved.defaultCollator⟩
  | .dropView _, _ => False

theorem step_cases (env : ViewEnvironment Collator) (catalog : ViewCatalog Collator)
    (request : ViewCall) (hrefresh : catalog.viewGraphNeedsRefresh = true) :
    (step env catalog request).viewGraphNeedsRefresh = true ∧
      ((step env catalog request).viewMap.find = catalog.viewMap.find ∨
        (∃ view, Defines catalog.viewMap request view ∧ Accepted env catalog.viewMap view ∧
          (step env catalog request).viewMap = catalog.viewMap.assign view) ∨
        ∃ name, (step env catalog request).viewMap = catalog.viewMap.erase name) := by
  cases request with
  | createView viewName viewOn pipeline collation =>
    simp only [step, call]
    unfold createView
    repeat' split
    all_goals try exact ⟨hrefresh, .inl rfl⟩
    rename_i hexists _ _ _ collator _
    obtain ⟨hneeds, hsame | ⟨haccepted, hmap⟩⟩ := createOrUpdateView_cases env
      ⟨viewName, viewOn, pipeline, collator⟩ { catalog := catalog } hrefresh rfl (by simp)
    · exact ⟨hneeds, .inl hsame⟩
    · exact ⟨hneeds, .inr (.inl ⟨_, ⟨by simpa using hexists, rfl, rfl, rfl⟩, haccepted, hmap⟩)⟩
  | modifyView viewName viewOn pipeline =>
    simp only [step, call]
    unfold modifyView
    repeat' split
    all_goals try exact ⟨hrefresh, .inl rfl⟩
    rename_i saved hsaved _
    have hrestores : Restores catalog.viewMap fun catalog =>
        { catalog with viewMap := catalog.viewMap.assign saved } := by
      intro other hother
      refine ⟨?_, rfl⟩
      rw [ViewMap.find_assign, hother, update_eq_self_iff, ViewMap.name_of_find hsaved, hsaved]
    obtain ⟨hneeds, hsame | ⟨haccepted, hmap⟩⟩ := createOrUpdateView_cases env
      ⟨viewName, viewOn, pipeline, saved.defaultCollator⟩
      { catalog := catalog, onRollback := [fun catalog =>
        { catalog with viewMap := catalog.viewMap.assign saved }] }
      hrefresh rfl (by simpa using hrestores)
    · exact ⟨hneeds, .inl hsame⟩
    · exact ⟨hneeds, .inr (.inl ⟨_, ⟨saved, hsaved, rfl⟩, haccepted, hmap⟩)⟩
  | dropView viewName =>
    simp only [step, call, dropView]
    cases hfind : catalog.viewMap.find viewName with
    | none => exact ⟨hrefresh, .inl rfl⟩
    | some saved => exact ⟨rfl, .inr (.inr ⟨viewName, rfl⟩)⟩

/-- What the validation gets wrong is not met by a call in the given catalog. -/
def Avoids (env : ViewEnvironment Collator) (catalog : ViewCatalog Collator)
    (request : ViewCall) : Prop :=
  ∀ view, Defines catalog.viewMap request view →
    DefinitionAvoids env (update catalog.viewMap.find view.name (some view)) view.name

/-- Every call of a sequence avoids what the validation gets wrong, in the catalog it is made
in. -/
def AllAvoid (env : ViewEnvironment Collator) : ViewCatalog Collator → List ViewCall → Prop
  | _, [] => True
  | catalog, request :: calls =>
      Avoids env catalog request ∧ AllAvoid env (step env catalog request) calls

/-- No pipeline that is given in the call starts with a `$collStats`. -/
def PlainCall : ViewCall → Prop
  | .createView _ _ pipeline _ => startsWithCollStats pipeline = false
  | .modifyView _ _ pipeline => startsWithCollStats pipeline = false
  | .dropView _ => True

theorem Resolvable.step
    (h : Resolvable env catalog.viewMap.find) (hrefresh : catalog.viewGraphNeedsRefresh = true)
    {request : ViewCall} (hplain : PlainCall request) (havoids : Avoids env catalog request) :
    Resolvable env (step env catalog request).viewMap.find ∧
      (ViewCatalog.step env catalog request).viewGraphNeedsRefresh = true := by
  obtain ⟨hneeds, hsame | ⟨view, hdefines, ⟨graph, hgraph, hvalid⟩, hmap⟩ | ⟨name, hmap⟩⟩ :=
    step_cases env catalog request hrefresh
  · rw [hsame]
    exact ⟨h, hneeds⟩
  · have hpipeline : startsWithCollStats view.pipeline = false := by
      cases request with
      | createView => exact hdefines.2.2.2 ▸ hplain
      | modifyView =>
        obtain ⟨saved, -, rfl⟩ := hdefines
        exact hplain
      | dropView => exact hdefines.elim
    rw [hmap, ViewMap.find_assign]
    exact ⟨h.assign hgraph hvalid hpipeline (havoids view hdefines), hneeds⟩
  · rw [hmap, ViewMap.find_erase]
    exact ⟨h.erase name, hneeds⟩

theorem Resolvable.foldl_step (h : Resolvable env catalog.viewMap.find)
    (hrefresh : catalog.viewGraphNeedsRefresh = true) {calls : List ViewCall}
    (hplain : ∀ request ∈ calls, PlainCall request) (havoids : AllAvoid env catalog calls) :
    Resolvable env (calls.foldl (ViewCatalog.step env) catalog).viewMap.find := by
  induction calls generalizing catalog with
  | nil => exact h
  | cons request calls ih =>
    obtain ⟨hnext, hneeds⟩ := h.step hrefresh (hplain request mem_cons_self) havoids.1
    exact ih hnext hneeds (fun other hother => hplain other (mem_cons_of_mem _ hother)) havoids.2

def chainPipeline (chain : List (ViewDefinition Collator)) : List BSONObj :=
  (chain.reverse.map fun view => view.pipeline).flatten

omit [DecidableEq Collator] in
theorem pipelineSize_append (pipeline pipeline' : List BSONObj) :
    pipelineSize (pipeline ++ pipeline') = pipelineSize pipeline + pipelineSize pipeline' := by
  simp [pipelineSize]

omit [DecidableEq Collator] in
theorem resolveFrom_of_chain (env : ViewEnvironment Collator)
    (hplain : ∀ nss view, viewMap.find nss = some view → startsWithCollStats view.pipeline = false)
    {nss base : NamespaceString} {chain : List (ViewDefinition Collator)}
    (h : ViewChain viewMap.find nss chain base) {rounds : ℕ} (hrounds : chain.length < rounds)
    (pipeline : List BSONObj) (collation : BSONObj)
    (hsize : pipelineSize pipeline + chainSize chain ≤ kMaxViewPipelineSizeBytes) :
    ∃ collation', resolveFrom env viewMap rounds nss pipeline collation =
      .ok ⟨base, chainPipeline chain ++ pipeline, collation'⟩ := by
  induction h generalizing rounds pipeline collation with
  | base hnone =>
    obtain ⟨rounds, rfl⟩ := Nat.exists_eq_succ_of_ne_zero (Nat.ne_zero_of_lt hrounds)
    have hfits : ¬ pipelineSize pipeline > kMaxViewPipelineSizeBytes := by
      simpa [chainSize] using hsize
    exact ⟨collation, by simp [resolveFrom, hnone, hfits, chainPipeline]⟩
  | @view nss base view rest hview _ ih =>
    obtain ⟨rounds, rfl⟩ := Nat.exists_eq_succ_of_ne_zero (Nat.ne_zero_of_lt hrounds)
    rw [chainSize_cons] at hsize
    obtain ⟨collation', hrun⟩ := ih (Nat.lt_of_succ_lt_succ hrounds) (view.pipeline ++ pipeline)
      ((view.defaultCollator.map env.toBSON).getD kSimpleSpec)
      (by rw [pipelineSize_append]; omega)
    refine ⟨collation', ?_⟩
    simp only [resolveFrom, hview, hplain nss view hview]
    simpa [chainPipeline] using hrun

/-- After calls that avoid what the validation gets wrong, every name, and so every view of the
catalog, is resolved to what is no view, with the pipelines of the chain in their order. -/
theorem resolveView_of_run (env : ViewEnvironment Collator) (calls : List ViewCall)
    (hplain : ∀ request ∈ calls, PlainCall request) (havoids : AllAvoid env empty calls)
    (nss : NamespaceString) :
    ∃ chain base collation, ViewChain (run env calls).viewMap.find nss chain base ∧
      (run env calls).viewMap.find base = none ∧
      resolveView env (run env calls) nss = .ok ⟨base, chainPipeline chain, collation⟩ := by
  have hresolvable : Resolvable env (run env calls).viewMap.find :=
    resolvable_empty.foldl_step rfl hplain havoids
  obtain ⟨chain, base, hchain, hlength, hsize⟩ := hresolvable.chain nss
  obtain ⟨collation, hrun⟩ := resolveFrom_of_chain env hresolvable.plain hchain hlength
    [] [] (by simpa [pipelineSize] using hsize)
  exact ⟨chain, base, collation, hchain, hchain.base_none, by simpa [resolveView] using hrun⟩

def plainEnvironment : ViewEnvironment Unit where
  makeFromBSON := fun _ => .ok ()
  toBSON := fun _ => []
  getInvolvedNamespaces := fun _ _ => []
  parsePipeline := fun _ _ => .ok ()
  iteration := .lastFirst
  viewsNotSupported := false

def stackedViews (count : ℕ) : List ViewCall :=
  (range count).map fun i =>
    .createView ⟨"db", "view" ++ toString i⟩ ⟨"db", "view" ++ toString (i + 1)⟩ [] []

theorem definitionAvoids_single {view : ViewDefinition Unit} (hviewOn : view.viewOn ≠ view.name) :
    DefinitionAvoids plainEnvironment (update (fun _ => none) view.name (some view)) view.name := by
  have hrefers : ∀ nss other, Refers plainEnvironment
      (update (fun _ => none) view.name (some view)) nss other → other = view.viewOn := by
    rintro nss other ⟨found, hfound, hother⟩
    rcases update_some_eq_some.mp hfound with ⟨-, rfl⟩ | ⟨-, hnone⟩
    · simpa [references, plainEnvironment] using hother
    · simp at hnone
  have hbelow : ∀ chain base, ViewChain (update (fun _ => none) view.name (some view))
      view.viewOn chain base → chain = [] := by
    intro chain base hchain
    cases hchain with
    | base => rfl
    | view hfound => simp [hviewOn] at hfound
  right
  constructor
  · rintro ⟨nss, child, child', shared, -, hchild, hchild', hne, -⟩
    exact hne ((hrefers nss child hchild).trans (hrefers nss child' hchild').symm)
  · rintro ⟨⟨chain, ⟨⟨nss, base, hchain⟩, -⟩, hlength⟩, -⟩
    cases hchain with
    | base => simp [kMaxViewDepth] at hlength
    | view hfound hrest =>
      rcases update_some_eq_some.mp hfound with ⟨-, rfl⟩ | ⟨-, hnone⟩
      · simp [hbelow _ _ hrest, kMaxViewDepth] at hlength
      · simp at hnone

theorem resolveView_of_run_single : ∃ chain base collation,
    ViewChain (run plainEnvironment (stackedViews 1)).viewMap.find ⟨"db", "view0"⟩ chain base ∧
      (run plainEnvironment (stackedViews 1)).viewMap.find base = none ∧
      resolveView plainEnvironment (run plainEnvironment (stackedViews 1)) ⟨"db", "view0"⟩ =
        .ok ⟨base, chainPipeline chain, collation⟩ := by
  apply resolveView_of_run
  · intro request hrequest
    obtain rfl := mem_singleton.mp hrequest
    rfl
  · refine ⟨?_, trivial⟩
    rintro view ⟨-, hname, hviewOn, -⟩
    apply definitionAvoids_single
    rw [hname, hviewOn]
    decide

/-- As many views as the graph allows, on top of each other: each of them is created, and the last
one cannot be read. -/
theorem resolveView_twentyViews :
    ((run plainEnvironment (stackedViews 20)).viewMap.find ⟨"db", "view0"⟩).isSome ∧
      (resolveView plainEnvironment (run plainEnvironment (stackedViews 20))
        ⟨"db", "view0"⟩).isOk = false := by
  decide +kernel

end MongoServer.ViewCatalog
