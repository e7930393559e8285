import MongoServer.Views.GraphLimits
import MongoServer.Views.ViewCatalog

/-!
Which views can be read. The graph that a definition is validated in is the graph of all
references of the map, so a definition that is accepted has no way back to itself, and every chain
of views through it was measured.
-/
namespace MongoServer
open Function List ViewGraph

open Relation

variable {Collator : Type} {last : NamespaceString} {name : NamespaceString}
  {found : ViewDefinition Collator}

namespace ViewMap

theorem name_of_find {viewMap : ViewMap Collator} {nss : NamespaceString}
    {view : ViewDefinition Collator} (h : viewMap.find nss = some view) : view.name = nss := by
  simpa using List.find?_some h

theorem find_erase (viewMap : ViewMap Collator) (nss : NamespaceString) :
    (viewMap.erase nss).find = update viewMap.find nss none := by
  funext other
  by_cases hother : other = nss
  · subst hother
    simp [find, erase]
  · rw [update_of_ne hother, find, find, erase, List.find?_filter]
    congr 1
    funext view
    by_cases hview : view.name = other <;> simp [hview, hother]

theorem find_assign (viewMap : ViewMap Collator) (view : ViewDefinition Collator) :
    (viewMap.assign view).find = update viewMap.find view.name (some view) := by
  funext other
  by_cases hother : other = view.name
  · subst hother
    simp [find, assign]
  · have hne : ¬ view.name = other := fun heq => hother heq.symm
    have herase := congrFun (find_erase viewMap view.name) other
    rw [update_of_ne hother] at herase ⊢
    rw [← herase]
    simp [find, assign, hne]

end ViewMap

namespace ViewCatalog

section References

variable {env : ViewEnvironment Collator} {graph : ViewGraph Collator}
  {views : NamespaceString → Option (ViewDefinition Collator)} {view : ViewDefinition Collator}
    {nss : NamespaceString}

def Refers (env : ViewEnvironment Collator)
    (views : NamespaceString → Option (ViewDefinition Collator)) (nss other : NamespaceString) :
    Prop :=
  ∃ view, views nss = some view ∧ other ∈ references env view

theorem refers_viewOn (h : views nss = some view) : Refers env views nss view.viewOn :=
  ⟨view, h, by simp [references]⟩

theorem refers_update {name nss other : NamespaceString} :
    Refers env (update views name (some view)) nss other ↔
      if nss = name then other ∈ references env view else Refers env views nss other := by
  by_cases hnss : nss = name <;> simp [Refers, hnss]

theorem refers_update_none {name nss other : NamespaceString} :
    Refers env (update views name none) nss other ↔ nss ≠ name ∧ Refers env views nss other := by
  by_cases hnss : nss = name <;> simp [Refers, hnss]

theorem update_none_eq_some {name nss : NamespaceString} :
    update views name none nss = some view ↔ nss ≠ name ∧ views nss = some view := by
  by_cases hnss : nss = name <;> simp [hnss]

theorem update_some_eq_some {name nss : NamespaceString} :
    update views name (some view) nss = some found ↔
      (nss = name ∧ view = found) ∨ (nss ≠ name ∧ views nss = some found) := by
  by_cases hnss : nss = name <;> simp [hnss]

/-- The graph is that of the references of the given views. -/
structure Represents (env : ViewEnvironment Collator) (graph : ViewGraph Collator)
    (views : NamespaceString → Option (ViewDefinition Collator)) : Prop where
  children : ∀ nss other, other ∈ (graph nss).children ↔ Refers env views nss other
  parents : ∀ nss other, other ∈ (graph nss).parents ↔ Refers env views other nss
  size : ∀ nss view, views nss = some view → (graph nss).size = pipelineSize view.pipeline
  nonneg : ∀ nss, 0 ≤ (graph nss).size

theorem represents_clear : Represents env clear fun _ => none where
  children := by simp [clear, Refers]
  parents := by simp [clear, Refers]
  size := by simp
  nonneg := by simp [clear]

theorem pipelineSize_nonneg (pipeline : List BSONObj) : 0 ≤ pipelineSize pipeline := by
  exact sum_nonneg (forall_mem_map.mpr fun _ _ => Int.natCast_nonneg _)

theorem Represents.insert (h : Represents env graph views) {inserted : ViewGraph Collator}
    (hinsert : graph.insertWithoutValidating view (references env view)
      (pipelineSize view.pipeline) = .ok inserted) :
    views view.name = none ∧ Represents env inserted (update views view.name (some view)) := by
  obtain ⟨hchildren, -, hnode⟩ := insertWithoutValidating_eq_ok hinsert
  have hnone : ∀ other, ¬ Refers env views view.name other := by
    intro other
    simp [← h.children, hchildren]
  constructor
  · by_contra hsome
    obtain ⟨old, hold⟩ := Option.ne_none_iff_exists'.mp hsome
    exact hnone _ (refers_viewOn hold)
  constructor
  · intro nss other
    rw [hnode, refers_update]
    by_cases hnss : nss = view.name <;> simp [hnss, mem_foldl_insert, h.children]
  · intro nss other
    rw [hnode, refers_update]
    by_cases hother : other = view.name <;> by_cases hnss : nss ∈ references env view <;>
      simp [hother, hnss, hnone, h.parents]
  · intro nss found hfound
    rw [hnode]
    rcases update_some_eq_some.mp hfound with ⟨rfl, rfl⟩ | ⟨hnss, hfound⟩
    · simp
    · simp [hnss, h.size nss found hfound]
  · intro nss
    rw [hnode]
    by_cases hnss : nss = view.name <;>
      simp [hnss, pipelineSize_nonneg view.pipeline, h.nonneg nss]

theorem Represents.remove (h : Represents env graph views) (viewNss : NamespaceString) :
    Represents env (graph.remove viewNss) (update views viewNss none) := by
  constructor
  · intro nss other
    rw [refers_update_none, ← h.children, children_remove]
    by_cases hnss : nss = viewNss <;> simp [hnss]
  · intro nss other
    rw [refers_update_none, ← h.parents]
    apply mem_parents_remove
    rw [h.parents, h.children]
    exact id
  · intro nss view hview
    obtain ⟨hnss, hview⟩ := update_none_eq_some.mp hview
    have hne : (graph nss).children ≠ [] :=
      ne_nil_of_mem ((h.children nss view.viewOn).mpr (refers_viewOn hview))
    simp only [remove_apply, if_neg hnss, withoutParent, hne, and_false, if_false]
    split_ifs <;> exact h.size nss view hview
  · exact nonneg_remove h.nonneg

theorem represents_refresh {viewMap : ViewMap Collator}
    (h : viewMap.foldlM (insertKnown env) clear = .ok graph) :
    Represents env graph viewMap.find := by
  apply Transition.foldlM_invariant
    (P := fun (done : ViewMap Collator) graph => Represents env graph (ViewMap.find done)) _ _ h
  · exact represents_clear
  · intro done view _ graph graph' hdone hinsert
    unfold insertKnown at hinsert
    split at hinsert
    · simp at hinsert
    · obtain ⟨hnone, hnew⟩ := hdone.insert hinsert
      have hfind : ViewMap.find (done ++ [view]) =
          update (ViewMap.find done) view.name (some view) := by
        funext nss
        by_cases hnss : nss = view.name
        · subst hnss
          unfold ViewMap.find at hnone
          simp [ViewMap.find, List.find?_append, hnone]
        · simp [ViewMap.find, List.find?_append, hnss, Ne.symm hnss]
      rw [hfind]
      exact hnew

end References

section Chains

variable {env : ViewEnvironment Collator}
  {views views' : NamespaceString → Option (ViewDefinition Collator)}

/-- The views that are passed on a way along references. -/
inductive Walk (env : ViewEnvironment Collator)
    (views : NamespaceString → Option (ViewDefinition Collator)) :
    NamespaceString → List (ViewDefinition Collator) → NamespaceString → Prop
  | nil (nss : NamespaceString) : Walk env views nss [] nss
  | cons {nss other last : NamespaceString} {view : ViewDefinition Collator}
      {rest : List (ViewDefinition Collator)} (hview : views nss = some view)
      (hother : other ∈ references env view) (hrest : Walk env views other rest last) :
      Walk env views nss (view :: rest) last

/-- The views from a namespace down to the collection that they are based on. -/
inductive ViewChain (views : NamespaceString → Option (ViewDefinition Collator)) :
    NamespaceString → List (ViewDefinition Collator) → NamespaceString → Prop
  | base {nss : NamespaceString} (hnone : views nss = none) : ViewChain views nss [] nss
  | view {nss base : NamespaceString} {view : ViewDefinition Collator}
      {rest : List (ViewDefinition Collator)} (hview : views nss = some view)
      (hrest : ViewChain views view.viewOn rest base) : ViewChain views nss (view :: rest) base

def chainSize (chain : List (ViewDefinition Collator)) : ℤ :=
  (chain.map fun view => pipelineSize view.pipeline).sum

theorem chainSize_nonneg (chain : List (ViewDefinition Collator)) : 0 ≤ chainSize chain := by
  exact sum_nonneg (forall_mem_map.mpr fun view _ => pipelineSize_nonneg view.pipeline)

@[simp] theorem chainSize_append (chain chain' : List (ViewDefinition Collator)) :
    chainSize (chain ++ chain') = chainSize chain + chainSize chain' := by
  simp [chainSize]

@[simp] theorem chainSize_cons (view : ViewDefinition Collator)
    (chain : List (ViewDefinition Collator)) :
    chainSize (view :: chain) = pipelineSize view.pipeline + chainSize chain := by
  simp [chainSize]

variable {base nss : NamespaceString} {chain : List (ViewDefinition Collator)}

theorem Walk.reflTransGen (h : Walk env views nss chain last) :
    ReflTransGen (Refers env views) nss last := by
  induction h with
  | nil => exact .refl
  | cons hview hother _ ih => exact .head ⟨_, hview, hother⟩ ih

section
variable (h : ViewChain views nss chain base)
include h

theorem ViewChain.walk : Walk env views nss chain base := by
  induction h with
  | base _ => exact .nil _
  | view hview _ ih => exact .cons hview (by simp [references]) ih

theorem ViewChain.base_none : views base = none := by
  induction h with
  | base hnone => exact hnone
  | view _ _ ih => exact ih

theorem ViewChain.of_agrees (env : ViewEnvironment Collator)
    (hagrees : ∀ other, other ≠ name → views' other = views other) :
    ViewChain views' nss chain base ∨
      ∃ upper lower, chain = upper ++ lower ∧ Walk env views' nss upper name ∧
        ∀ lower' base', ViewChain views' name lower' base' →
          ViewChain views' nss (upper ++ lower') base' := by
  induction h with
  | @base nss hnone =>
    by_cases hnss : nss = name
    · subst hnss
      exact .inr ⟨[], [], rfl, .nil _, fun _ _ hlower => hlower⟩
    · exact .inl (.base ((hagrees nss hnss).trans hnone))
  | @view nss base view rest hview hrest ih =>
    by_cases hnss : nss = name
    · subst hnss
      exact .inr ⟨[], view :: rest, rfl, .nil _, fun _ _ hlower => hlower⟩
    · have hview' : views' nss = some view := (hagrees nss hnss).trans hview
      rcases ih with hsame | ⟨upper, lower, rfl, hwalk, hlower⟩
      · exact .inl (.view hview' hsame)
      · refine .inr ⟨view :: upper, lower, rfl, .cons hview' (by simp [references]) hwalk, ?_⟩
        intro lower' base' hlower'
        exact .view hview' (hlower lower' base' hlower')

end

section Bounds

variable {graph : ViewGraph Collator}

theorem Walk.way (hgraph : Represents env graph views)
    (hnamed : ∀ nss view, views nss = some view → view.name = nss)
    (h : Walk env views nss chain last) :
    Way (Refers env views) nss (chain.map ViewDefinition.name) last ∧
      pathSize graph (chain.map ViewDefinition.name) = chainSize chain := by
  induction h with
  | nil nss => exact ⟨.nil nss, rfl⟩
  | @cons nss other last view rest hview hother _ ih =>
    obtain rfl := hnamed nss view hview
    refine ⟨.cons ⟨view, hview, hother⟩ ih.1, ?_⟩
    rw [chainSize_cons, ← ih.2, ← hgraph.size _ view hview]
    simp [pathSize]

variable [DecidableEq Collator] {iteration : IterationOrder}

theorem acyclic_of_validate (hgraph : Represents env graph views)
    (h : graph.validate iteration name = .ok ()) : ¬ TransGen (Refers env views) name name := by
  obtain ⟨below, hbelow, -⟩ := Transition.bind_eq_ok.mp h
  have hacyclic := validateChildren_acyclic hbelow
  simp only [hgraph.children] at hacyclic
  exact hacyclic

end Bounds

end Chains

section Resolvable

variable (env : ViewEnvironment Collator)
  (views : NamespaceString → Option (ViewDefinition Collator))

/-- What makes every view readable: there are no cycles, and every chain is short and small enough
for the loop that resolves views. -/
structure Resolvable : Prop where
  acyclic : ∀ nss, ¬ TransGen (Refers env views) nss nss
  chain : ∀ nss, ∃ chain base, ViewChain views nss chain base ∧ chain.length < kMaxViewDepth ∧
    chainSize chain ≤ kMaxViewPipelineSizeBytes
  named : ∀ nss view, views nss = some view → view.name = nss
  plain : ∀ nss view, views nss = some view → startsWithCollStats view.pipeline = false

variable (name : NamespaceString)

/-- A chain of views that passes the given one. -/
def ChainThrough (chain : List (ViewDefinition Collator)) : Prop :=
  (∃ nss base, ViewChain views nss chain base) ∧ ∃ view ∈ chain, view.name = name

/-- The longest chain of views through the given one has as many views as the graph allows. -/
def LongestChainIsMax : Prop :=
  (∃ chain, ChainThrough views name chain ∧ chain.length = kMaxViewDepth) ∧
    ∀ chain, ChainThrough views name chain → chain.length ≤ kMaxViewDepth

/-- The new definition of a view does not meet what the validation gets wrong, or makes a cycle. -/
def DefinitionAvoids : Prop :=
  TransGen (Refers env views) name name ∨
    (¬ ViewGraph.SharesReference (Refers env views) name ∧ ¬ LongestChainIsMax views name)

variable {env views} {view : ViewDefinition Collator}

theorem resolvable_empty : Resolvable env fun _ => none where
  acyclic := by
    intro nss hcycle
    obtain ⟨last, -, view, hview, -⟩ := TransGen.tail'_iff.mp hcycle
    simp at hview
  chain := fun nss => ⟨[], nss, .base rfl, by simp [kMaxViewDepth],
    by simp [chainSize, kMaxViewPipelineSizeBytes]⟩
  named := by simp
  plain := by simp

theorem Resolvable.erase (h : Resolvable env views) (name : NamespaceString) :
    Resolvable env (update views name none) := by
  have hagrees : ∀ other, other ≠ name → update views name none other = views other :=
    fun other hother => update_of_ne hother _ _
  constructor
  · apply acyclic_of_agrees h.acyclic fun _ _ _ hstep => (refers_update_none.mp hstep).2
    intro hcycle
    obtain ⟨first, hfirst, -⟩ := TransGen.head'_iff.mp hcycle
    exact (refers_update_none.mp hfirst).1 rfl
  · intro nss
    obtain ⟨chain, base, hchain, hlength, hsize⟩ := h.chain nss
    rcases hchain.of_agrees env hagrees with hsame | ⟨upper, lower, rfl, -, hupper⟩
    · exact ⟨chain, base, hsame, hlength, hsize⟩
    · have hnone : ViewChain (update views name none) name [] name :=
        .base (update_self ..)
      have hlower := chainSize_nonneg lower
      rw [length_append] at hlength
      rw [chainSize_append] at hsize
      refine ⟨upper, name, by simpa using hupper [] name hnone, by omega, by omega⟩
  · intro nss view hview
    exact h.named nss view (update_none_eq_some.mp hview).2
  · intro nss view hview
    exact h.plain nss view (update_none_eq_some.mp hview).2

variable [DecidableEq Collator] {iteration : IterationOrder}

/-- A definition that is accepted and does not meet the defects leaves every view readable. -/
theorem Resolvable.assign (h : Resolvable env views) {graph : ViewGraph Collator}
    (hgraph : Represents env graph (update views view.name (some view)))
    (hvalid : graph.validate iteration view.name = .ok ())
    (hplain : startsWithCollStats view.pipeline = false)
    (havoids : DefinitionAvoids env (update views view.name (some view)) view.name) :
    Resolvable env (update views view.name (some view)) := by
  have hagrees : ∀ other, other ≠ view.name →
      update views view.name (some view) other = views other :=
    fun other hother => update_of_ne hother _ _
  have hnamed : ∀ nss found, update views view.name (some view) nss = some found →
      found.name = nss := by
    intro nss found hfound
    rcases update_some_eq_some.mp hfound with ⟨rfl, rfl⟩ | ⟨-, hfound⟩
    · rfl
    · exact h.named nss found hfound
  have hname := acyclic_of_validate hgraph hvalid
  have hacyclic := acyclic_of_agrees h.acyclic (fun nss other hnss hstep => by
    simpa [refers_update, hnss] using hstep) hname
  obtain ⟨hshares, hlongest⟩ := havoids.resolve_left hname
  have hview : update views view.name (some view) view.name = some view :=
    update_self ..
  have hbounds {nss base : NamespaceString} {chain : List (ViewDefinition Collator)}
      (hchain : ViewChain (update views view.name (some view)) nss chain base)
      (hmem : view.name ∈ chain.map ViewDefinition.name) :
      chain.length ≤ kMaxViewDepth ∧ chainSize chain ≤ kMaxViewPipelineSizeBytes := by
    obtain ⟨hway, hsize⟩ := hchain.walk.way hgraph hnamed
    have hbound := (bounds_of_validate hgraph.children hgraph.parents hgraph.nonneg hacyclic hshares
      hvalid).1 _ _ _ hway hmem
    rwa [length_map, hsize] at hbound
  -- the chain below the new view is the one there was, because it does not lead back
  obtain ⟨below, base, hbelow, -, -⟩ := h.chain view.viewOn
  have hlower : ViewChain (update views view.name (some view)) view.name (view :: below) base := by
    rcases hbelow.of_agrees env hagrees with hsame | ⟨upper, lower, -, hwalk, -⟩
    · exact .view hview hsame
    · exact absurd (TransGen.head' (refers_viewOn hview) hwalk.reflTransGen) hname
  constructor
  · exact hacyclic
  · intro nss
    obtain ⟨chain, base', hchain, hlength, hsize⟩ := h.chain nss
    rcases hchain.of_agrees env hagrees with hsame | ⟨upper, lower, -, hwalk, hupper⟩
    · exact ⟨chain, base', hsame, hlength, hsize⟩
    · have hnew := hupper _ _ hlower
      obtain ⟨hlength', hsize'⟩ := hbounds hnew (by simp)
      refine ⟨upper ++ view :: below, base, hnew, lt_of_le_of_ne hlength' ?_, hsize'⟩
      intro heq
      apply hlongest
      refine ⟨⟨upper ++ view :: below, ⟨⟨nss, base, hnew⟩, view, by simp, rfl⟩, heq⟩, ?_⟩
      -- no chain through the view is longer, because the validation has bounded all of them
      rintro other ⟨⟨_, _, hother⟩, found, hfound, hname⟩
      exact (hbounds hother (mem_map.mpr ⟨found, hfound, hname⟩)).1
  · exact hnamed
  · intro nss found hfound
    rcases update_some_eq_some.mp hfound with ⟨-, rfl⟩ | ⟨-, hfound⟩
    · exact hplain
    · exact h.plain nss found hfound

end Resolvable

end ViewCatalog
end MongoServer
