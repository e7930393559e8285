import MongoServer.Views.Validation

/-!
Calls on the graph of views. A rejected view leaves its size in a node that others refer to, and
the limits hold as long as no view reaches a namespace through two of its references.
-/
namespace MongoServer.ViewGraph
open Function Transition List Relation

variable {Collator : Type} {graph : ViewGraph Collator} {viewNss nss other : NamespaceString}
  {node : Node Collator}

section Edits

/-- The reference from a node to each of some others, and back. -/
theorem foldl_addReference (refs : List NamespaceString) :
    refs.foldl (addReference viewNss) graph nss = { graph nss with
      children := if nss = viewNss then refs.foldl (·.insert ·) (graph nss).children
        else (graph nss).children
      parents := if nss ∈ refs then (graph nss).parents.insert viewNss
        else (graph nss).parents } := by
  induction refs generalizing graph with
  | nil => simp
  | cons child refs ih =>
    rw [foldl_cons, ih, addReference]
    by_cases hview : nss = viewNss <;> by_cases hchild : nss = child <;>
      by_cases hmem : nss ∈ refs <;> simp_all [update_apply]

theorem mem_foldl_insert {refs children : List NamespaceString} :
    other ∈ refs.foldl (·.insert ·) children ↔ other ∈ children ∨ other ∈ refs := by
  induction refs generalizing children with
  | nil => simp
  | cons child refs ih => simp [ih, or_assoc, or_left_comm]

/-- A node that a view no longer refers to; it goes if nothing else keeps it. -/
def withoutParent (viewNss : NamespaceString) (node : Node Collator) : Node Collator :=
  if node.parents.filter (fun parent => parent ≠ viewNss) = [] ∧ node.children = [] then {}
  else { node with parents := node.parents.filter fun parent => parent ≠ viewNss }

theorem withoutParent_idem :
    withoutParent viewNss (withoutParent viewNss node) = withoutParent viewNss node := by
  by_cases h : node.parents.filter (fun parent => parent ≠ viewNss) = [] ∧ node.children = []
  · rw [show withoutParent viewNss node = {} from if_pos h]
    rfl
  · rw [show withoutParent viewNss node = _ from if_neg h, withoutParent]
    simp only [filter_filter, Bool.and_self]
    exact if_neg h

@[simp] theorem children_withoutParent : (withoutParent viewNss node).children = node.children := by
  unfold withoutParent
  split_ifs with hempty
  · exact hempty.2.symm
  · rfl

theorem foldl_removeParent (children : List NamespaceString) :
    children.foldl (removeParent viewNss) graph nss =
      if nss ∈ children then withoutParent viewNss (graph nss) else graph nss := by
  induction children generalizing graph with
  | nil => rfl
  | cons child children ih =>
    have hone : removeParent viewNss graph child =
      update graph child (withoutParent viewNss (graph child)) := rfl
    rw [foldl_cons, ih, hone]
    by_cases hchild : nss = child
    · subst hchild
      simp [withoutParent_idem]
    · simp [hchild]

theorem remove_apply : graph.remove viewNss nss =
    if nss = viewNss then
      if (graph nss).parents.filter (fun parent => parent ≠ nss) = [] then {}
      else { graph nss with
        children := [], collator := none
        parents := (graph nss).parents.filter fun parent => parent ≠ nss }
    else if nss ∈ (graph viewNss).children then withoutParent viewNss (graph nss)
    else graph nss := by
  by_cases hnss : nss = viewNss
  · subst hnss
    rw [remove, update_self, if_pos rfl]
  · simp only [remove]
    rw [update_of_ne hnss, foldl_removeParent, update_of_ne hnss, if_neg hnss]
    simp [hnss]

/-- What is in the graph after a view was inserted. -/
theorem insertWithoutValidating_eq_ok {view : ViewDefinition Collator}
    {refs : List NamespaceString} {size : ℤ} {inserted : ViewGraph Collator}
    (h : graph.insertWithoutValidating view refs size = .ok inserted) :
    (graph view.name).children = [] ∧ (graph view.name).collator = none ∧ ∀ nss, inserted nss = {
        children := if nss = view.name then refs.foldl (·.insert ·) [] else (graph nss).children
        parents := if nss ∈ refs then (graph nss).parents.insert view.name
          else (graph nss).parents
        collator := if nss = view.name then some view.defaultCollator else (graph nss).collator
        size := if nss = view.name then size else (graph nss).size } := by
  simp only [insertWithoutValidating] at h
  split_ifs at h with hnode
  obtain ⟨hchildren, hcollator⟩ : (graph view.name).children = [] ∧
      (graph view.name).collator = none := by simpa using hnode
  cases h
  refine ⟨hchildren, hcollator, fun nss => ?_⟩
  rw [foldl_addReference]
  by_cases hnss : nss = view.name <;> simp [hnss, hchildren]

end Edits

/-- References and their reverses agree, and a namespace without either is not in the graph. -/
structure Consistent (graph : ViewGraph Collator) : Prop where
  parents : ∀ nss other, other ∈ (graph nss).parents ↔ nss ∈ (graph other).children
  blank : ∀ nss, (graph nss).parents = [] → (graph nss).children = [] → graph nss = {}
  nonneg : ∀ nss, 0 ≤ (graph nss).size

section Consistent

theorem consistent_clear : Consistent (clear : ViewGraph Collator) where
  parents := by simp [clear]
  blank := fun _ _ _ => rfl
  nonneg := fun _ => le_rfl

theorem children_remove :
    (graph.remove viewNss nss).children = if nss = viewNss then [] else (graph nss).children := by
  rw [remove_apply]
  split_ifs <;> simp

/-- Nodes that differ in their parents at most. -/
def Node.Agrees (node node' : Node Collator) : Prop :=
  node.children = node'.children ∧ node.size = node'.size ∧ node.collator = node'.collator

theorem agrees_of_remove (h : (graph.remove viewNss nss).children ≠ []) :
    nss ≠ viewNss ∧ (graph.remove viewNss nss).Agrees (graph nss) := by
  by_cases hnss : nss = viewNss
  · simp [children_remove, hnss] at h
  · rw [children_remove, if_neg hnss] at h
    simp only [remove_apply, if_neg hnss, withoutParent, h, and_false, if_false]
    exact ⟨hnss, by split_ifs <;> exact ⟨rfl, rfl, rfl⟩⟩

theorem mem_parents_remove (h : viewNss ∈ (graph nss).parents → nss ∈ (graph viewNss).children) :
    other ∈ (graph.remove viewNss nss).parents ↔ other ≠ viewNss ∧ other ∈ (graph nss).parents := by
  have hfilter : other ∈ (graph nss).parents.filter (fun parent => parent ≠ viewNss) ↔
      other ≠ viewNss ∧ other ∈ (graph nss).parents := by simp [and_comm]
  rw [remove_apply, withoutParent]
  split_ifs with hnss hempty hchild hempty
  · rw [← hfilter, ← hnss, hempty]
  · rw [← hfilter, ← hnss]
  · rw [← hfilter, hempty.1]
  · exact hfilter
  · have hne : other ∈ (graph nss).parents → other ≠ viewNss := by
      rintro hother rfl
      exact hchild (h hother)
    tauto

theorem nonneg_remove (h : ∀ nss, 0 ≤ (graph nss).size) (nss : NamespaceString) :
    0 ≤ (graph.remove viewNss nss).size := by
  rw [remove_apply, withoutParent]
  split_ifs <;> first | exact h nss | exact le_rfl

variable {view : ViewDefinition Collator} {refs : List NamespaceString} {size : ℤ}
  {inserted : ViewGraph Collator}

theorem agrees_of_insert (h : graph.insertWithoutValidating view refs size = .ok inserted)
    (hnss : nss ≠ view.name) : (inserted nss).Agrees (graph nss) := by
  rw [(insertWithoutValidating_eq_ok h).2.2 nss]
  simp [Node.Agrees, hnss]

theorem Consistent.insert (h : Consistent graph) (hrefs : refs ≠ []) (hsize : 0 ≤ size)
    (hinsert : graph.insertWithoutValidating view refs size = .ok inserted) :
    Consistent inserted := by
  obtain ⟨hchildren, -, hnode⟩ := insertWithoutValidating_eq_ok hinsert
  have hnone : ∀ nss, view.name ∉ (graph nss).parents := by
    intro nss
    simp [h.parents, hchildren]
  constructor
  · intro nss other
    rw [hnode nss, hnode other]
    by_cases hother : other = view.name <;> by_cases hnss : nss ∈ refs <;>
      simp [hother, hnss, hnone, mem_foldl_insert, h.parents]
  · intro nss hparents hempty
    rw [hnode nss] at hparents hempty ⊢
    have hne : nss ≠ view.name := by
      rintro rfl
      obtain ⟨ref, rest, rfl⟩ := exists_cons_of_ne_nil hrefs
      have hmem : ref ∈ (ref :: rest).foldl (·.insert ·) [] := by simp [mem_foldl_insert]
      simp_all
    have hnot : nss ∉ refs := by
      intro hmem
      have hself : view.name ∈ (graph nss).parents.insert view.name := mem_insert_self
      simp_all
    have hblank := h.blank nss
    simp_all
  · intro nss
    rw [hnode nss]
    dsimp only
    split_ifs
    · exact hsize
    · exact h.nonneg nss

theorem Consistent.remove (h : Consistent graph) (viewNss : NamespaceString) :
    Consistent (graph.remove viewNss) := by
  constructor
  · intro nss other
    rw [mem_parents_remove (h.parents nss viewNss).mp, children_remove, h.parents]
    by_cases hother : other = viewNss <;> simp [hother]
  · intro nss hparents hchildren
    rw [remove_apply, withoutParent] at hparents hchildren ⊢
    split_ifs at hparents hchildren ⊢ with hnss hempty hchild hempty
    · rfl
    · exact absurd hparents hempty
    · rfl
    · exact absurd ⟨hparents, hchildren⟩ hempty
    · exact h.blank nss hparents hchildren
  · exact nonneg_remove h.nonneg

/-- A view that was inserted and removed again leaves its size in a node that is still referred
to, and nothing else. -/
theorem Consistent.remove_of_insert (h : Consistent graph)
    (hinsert : graph.insertWithoutValidating view refs size = .ok inserted) :
    inserted.remove view.name = graph ↔
      (graph view.name).parents = [] ∨ size = (graph view.name).size := by
  obtain ⟨hchildren, hcollator, hnode⟩ := insertWithoutValidating_eq_ok hinsert
  have hfilter (nss : NamespaceString) :
      (inserted nss).parents.filter (fun parent => parent ≠ view.name) = (graph nss).parents := by
    have hnone : view.name ∉ (graph nss).parents := by simp [h.parents, hchildren]
    have hkeep : (graph nss).parents.filter (fun parent => parent ≠ view.name) =
        (graph nss).parents := filter_eq_self.mpr fun other hother => by
      simpa using fun heq : other = view.name => hnone (heq ▸ hother)
    rw [hnode nss]
    dsimp only
    split_ifs
    · rw [insert_of_not_mem hnone, filter_cons_of_neg (by simp), hkeep]
    · exact hkeep
  have hself : inserted.remove view.name view.name = graph view.name ↔
      (graph view.name).parents = [] ∨ size = (graph view.name).size := by
    rw [remove_apply, if_pos rfl, hfilter]
    by_cases hempty : (graph view.name).parents = []
    · simp [h.blank _ hempty hchildren]
    · rcases hold : graph view.name with ⟨children, parents, collator, old⟩
      simp_all
  rw [← hself]
  constructor
  · exact fun heq => congrFun heq _
  · intro hsame
    funext nss
    by_cases hnss : nss = view.name
    · rwa [hnss]
    · have hrefs : nss ∈ (inserted view.name).children ↔ nss ∈ refs := by
        rw [hnode]
        simp [mem_foldl_insert]
      have hsame : (inserted nss).children = (graph nss).children := by
        rw [hnode]
        exact if_neg hnss
      simp only [remove_apply, if_neg hnss, withoutParent, hfilter, hrefs, hsame]
      split_ifs with hmem hempty
      · exact (h.blank nss hempty.1 hempty.2).symm
      all_goals
        rw [hnode nss]
        simp [hnss, hmem]

end Consistent

section Ways
variable {next : NamespaceString → NamespaceString → Prop} {stats : StatsMap}
  {first last name : NamespaceString} {path : List NamespaceString}

/-- The namespaces that are left on a way along references. -/
inductive Way (next : NamespaceString → NamespaceString → Prop) :
    NamespaceString → List NamespaceString → NamespaceString → Prop
  | nil (nss : NamespaceString) : Way next nss [] nss
  | cons {nss other last : NamespaceString} {path : List NamespaceString} (hnext : next nss other)
      (hrest : Way next other path last) : Way next nss (nss :: path) last

def pathSize (graph : ViewGraph Collator) (path : List NamespaceString) : ℤ :=
  (path.map fun nss => (graph nss).size).sum

theorem Way.split (h : Way next first path last) (hname : name ∈ path) :
    ∃ upper lower, path = upper ++ lower ∧ Way next first upper name ∧
      Way next name lower last := by
  induction h with
  | nil => simp at hname
  | @cons nss other last path hnext hrest ih =>
    by_cases hnss : nss = name
    · subst hnss
      exact ⟨[], _, rfl, .nil _, .cons hnext hrest⟩
    · obtain ⟨upper, lower, rfl, hupper, hlower⟩ :=
        ih ((mem_cons.mp hname).resolve_left (Ne.symm hnss))
      exact ⟨nss :: upper, lower, rfl, .cons hnext hupper, hlower⟩

/-- Heights and sizes that were measured downwards bound what is below a node. -/
theorem Way.le_below (hstats : graph.Measured next stats) (h : Way next first path last)
    (hchecked : (stats first).checked) :
    (stats last).checked ∧ (stats last).height + path.length ≤ (stats first).height ∧
      (stats last).cumulativeSize + pathSize graph path ≤ (stats first).cumulativeSize := by
  induction h with
  | nil => simp [hchecked, pathSize]
  | @cons nss other last path hnext _ ih =>
    obtain ⟨hother, hheight, hsize⟩ := hstats.next nss other hchecked hnext
    obtain ⟨hlast, hheight', hsize'⟩ := ih hother
    simp only [pathSize, map_cons, sum_cons, length_cons] at hsize' ⊢
    push_cast
    exact ⟨hlast, by omega, by omega⟩

/-- Heights and sizes that were measured upwards bound what leads to a node. -/
theorem Way.le_above (hstats : graph.Measured (fun nss other => next other nss) stats)
    (h : Way next first path last) (hchecked : (stats last).checked) :
    (stats first).checked ∧ (stats first).height + path.length ≤ (stats last).height ∧
      (stats first).cumulativeSize + pathSize graph path + (graph last).size ≤
        (stats last).cumulativeSize + (graph first).size := by
  induction h with
  | nil => simp [hchecked, pathSize]
  | @cons nss other last path hnext _ ih =>
    obtain ⟨hother, hheight, hsize⟩ := ih hchecked
    obtain ⟨hnss, hheight', hsize'⟩ := hstats.next other nss hother hnext
    simp only [pathSize, map_cons, sum_cons, length_cons] at hsize ⊢
    push_cast
    exact ⟨hnss, by omega, by omega⟩

/-- What leaves all but one name as it was makes no cycle that avoids the name. -/
theorem acyclic_of_agrees {next' : NamespaceString → NamespaceString → Prop}
    (hacyclic : ∀ nss, ¬ TransGen next nss nss)
    (hagrees : ∀ nss other, nss ≠ name → next' nss other → next nss other)
    (hname : ¬ TransGen next' name name) (nss : NamespaceString) : ¬ TransGen next' nss nss := by
  have hsplit : ∀ {first last}, TransGen next' first last →
      TransGen next first last ∨ (ReflTransGen next' first name ∧ TransGen next' name last) := by
    intro first last hpath
    induction hpath using TransGen.head_induction_on with
    | @single first hstep =>
      by_cases hfirst : first = name
      · subst hfirst
        exact .inr ⟨.refl, .single hstep⟩
      · exact .inl (.single (hagrees _ _ hfirst hstep))
    | @head first second hstep hrest ih =>
      by_cases hfirst : first = name
      · subst hfirst
        exact .inr ⟨.refl, .head hstep hrest⟩
      · rcases ih with hold | ⟨hto, hfrom⟩
        · exact .inl (.head (hagrees _ _ hfirst hstep) hold)
        · exact .inr ⟨.head hstep hto, hfrom⟩
  intro hcycle
  rcases hsplit hcycle with hold | ⟨hto, hfrom⟩
  · exact hacyclic nss hold
  · exact hname (hfrom.trans_left hto)

variable [DecidableEq Collator] {iteration : IterationOrder}

/-- What a view that is accepted is part of, unless it shares a reference: short ways, and the
collation of the views next to it. -/
theorem bounds_of_validate (hchildren : ∀ nss other, other ∈ (graph nss).children ↔ next nss other)
    (hparents : ∀ nss other, other ∈ (graph nss).parents ↔ next other nss)
    (hnonneg : ∀ nss, 0 ≤ (graph nss).size) (hacyclic : ∀ nss, ¬ TransGen next nss nss)
    (hshares : ¬ SharesReference next name) (h : graph.validate iteration name = .ok ()) :
    (∀ first path last, Way next first path last → name ∈ path →
      path.length ≤ kMaxViewDepth ∧ pathSize graph path ≤ kMaxViewPipelineSizeBytes) ∧
    ∀ other, next name other ∨ next other name → checkCollators graph name other = .ok () := by
  obtain ⟨below, hbelow, h⟩ := bind_eq_ok.mp h
  obtain ⟨above, habove, h⟩ := bind_eq_ok.mp h
  obtain ⟨hdown, hcheck⟩ := validateChildren_visits hchildren hnonneg hacyclic hshares .refl
    measured_empty (fun _ _ => rfl) hbelow
  obtain ⟨hup, hcheck'⟩ := validateParents_visits hparents hnonneg
    (fun nss hcycle => hacyclic nss (transGen_swap.mp hcycle)) measured_empty rfl habove
  refine ⟨fun first path last hway hname => ?_,
    fun other hother => hother.elim (hcheck other) (hcheck' other)⟩
  obtain ⟨upper, lower, rfl, hupper, hlower⟩ := hway.split hname
  obtain ⟨hlast, hheight, hsize⟩ := hlower.le_below hdown.measured hdown.checked
  obtain ⟨hfirst, hheight', hsize'⟩ := hupper.le_above hup.measured hup.checked
  have hownLast := hdown.measured.own last hlast
  have hownFirst := hup.measured.own first hfirst
  have hlastSize := hnonneg last
  simp only at h
  split_ifs at h with hdepth hbytes
  simp only [pathSize, map_append, sum_append, length_append] at hsize hsize' ⊢
  constructor <;> omega

theorem collators_of_check {nss other : NamespaceString}
    (h : checkCollators graph nss other = .ok ()) (hview : (graph other).children ≠ []) :
    (graph nss).collator.join = (graph other).collator.join := by
  obtain ⟨isView, hisView, h⟩ := bind_eq_ok.mp h
  have hisView : isView = true := by
    unfold Node.isView at hisView
    split_ifs at hisView
    cases hisView
    simpa using hview
  subst hisView
  by_contra hne
  simp [collatorsMatch, hne] at h

end Ways

abbrev RefersTo (graph : ViewGraph Collator) (nss other : NamespaceString) : Prop :=
  other ∈ (graph nss).children

/-- There is no cycle, no way along references is too long or too large, and views that refer to
each other have the same collation. -/
structure WithinLimits (graph : ViewGraph Collator) : Prop where
  acyclic : ∀ nss, ¬ TransGen graph.RefersTo nss nss
  bounded : ∀ {first path last}, Way graph.RefersTo first path last →
    path.length ≤ kMaxViewDepth ∧ pathSize graph path ≤ kMaxViewPipelineSizeBytes
  collation : ∀ {nss other}, graph.RefersTo nss other → (graph other).children ≠ [] →
    (graph nss).collator.join = (graph other).collator.join

section Limits
variable {first last : NamespaceString} {path : List NamespaceString}

theorem withinLimits_clear : WithinLimits (clear : ViewGraph Collator) where
  acyclic := by
    intro nss hcycle
    obtain ⟨_, -, hlast⟩ := TransGen.tail'_iff.mp hcycle
    simp [RefersTo, clear] at hlast
  bounded := by
    rintro first path last (_ | ⟨hnext, -⟩)
    · simp [pathSize, kMaxViewPipelineSizeBytes]
    · simp [RefersTo, clear] at hnext
  collation := by simp [RefersTo, clear]

theorem Way.transfer {graph' : ViewGraph Collator} (h : Way graph'.RefersTo first path last)
    (hold : ∀ nss ∈ path, ∀ other, graph'.RefersTo nss other →
      graph.RefersTo nss other ∧ (graph' nss).size = (graph nss).size) :
    Way graph.RefersTo first path last ∧ pathSize graph' path = pathSize graph path := by
  induction h with
  | nil nss => exact ⟨.nil nss, rfl⟩
  | cons hnext _ ih =>
    obtain ⟨hfirst, hrest⟩ := forall_mem_cons.mp hold
    obtain ⟨hnext', hsize⟩ := hfirst _ hnext
    obtain ⟨hway, hpath⟩ := ih hrest
    refine ⟨.cons hnext' hway, ?_⟩
    rw [pathSize, map_cons, sum_cons, hsize, ← pathSize, hpath]
    rfl

theorem WithinLimits.of_agrees {graph' : ViewGraph Collator} (h : WithinLimits graph)
    (hold : ∀ {nss}, (graph' nss).children ≠ [] → (graph' nss).Agrees (graph nss)) :
    WithinLimits graph' := by
  have hstep {nss other : NamespaceString} (hother : graph'.RefersTo nss other) :
      graph.RefersTo nss other := by
    rwa [RefersTo, (hold (ne_nil_of_mem hother)).1] at hother
  refine ⟨fun nss hcycle => ?_, fun hway => ?_, fun hother hview => ?_⟩
  · exact h.acyclic nss (TransGen.mono (fun _ _ hother => hstep hother) nss nss hcycle)
  · obtain ⟨hway', hsize⟩ := hway.transfer fun nss _ other hother =>
      ⟨hstep hother, (hold (ne_nil_of_mem hother)).2.1⟩
    rw [hsize]
    exact h.bounded hway'
  · have hother' := hold hview
    rw [(hold (ne_nil_of_mem hother)).2.2, hother'.2.2]
    exact h.collation (hstep hother) (hother'.1 ▸ hview)

variable [DecidableEq Collator] {iteration : IterationOrder} {view : ViewDefinition Collator}
  {refs : List NamespaceString} {size : ℤ} {inserted : ViewGraph Collator}

theorem WithinLimits.insert (h : WithinLimits graph)
    (hinsert : graph.insertWithoutValidating view refs size = .ok inserted)
    (hinserted : Consistent inserted) (hvalid : inserted.validate iteration view.name = .ok ())
    (hshares : ¬ SharesReference inserted.RefersTo view.name) : WithinLimits inserted := by
  have hold {nss : NamespaceString} (hnss : nss ≠ view.name) := agrees_of_insert hinsert hnss
  have hstep {nss other : NamespaceString} (hnss : nss ≠ view.name)
      (hother : inserted.RefersTo nss other) : graph.RefersTo nss other := by
    rwa [RefersTo, (hold hnss).1] at hother
  obtain ⟨below, hbelow, -⟩ := bind_eq_ok.mp hvalid
  have hacyclic := acyclic_of_agrees h.acyclic (fun _ _ => hstep) (validateChildren_acyclic hbelow)
  obtain ⟨hbounds, hcheck⟩ := bounds_of_validate (fun _ _ => Iff.rfl) hinserted.parents
    hinserted.nonneg hacyclic hshares hvalid
  refine ⟨hacyclic, fun {first path last} hway => ?_, fun {nss other} hother hview => ?_⟩
  · by_cases hname : view.name ∈ path
    · exact hbounds _ _ _ hway hname
    · have hne {nss : NamespaceString} (hnss : nss ∈ path) : nss ≠ view.name :=
        fun heq => hname (heq ▸ hnss)
      obtain ⟨hway', hsize⟩ := hway.transfer fun nss hnss other hother =>
        ⟨hstep (hne hnss) hother, (hold (hne hnss)).2.1⟩
      rw [hsize]
      exact h.bounded hway'
  · by_cases hnss : nss = view.name
    · subst hnss
      exact collators_of_check (hcheck other (.inl hother)) hview
    · by_cases hname : other = view.name
      · subst hname
        exact (collators_of_check (hcheck nss (.inr hother)) (ne_nil_of_mem hother)).symm
      · rw [(hold hname).1] at hview
        rw [(hold hnss).2.2, (hold hname).2.2]
        exact h.collation (hstep hnss hother) hview

end Limits

section Calls
variable [DecidableEq Collator] (iteration : IterationOrder)

/-- A call on the graph. A view refers to one namespace at least. -/
inductive Call (Collator : Type) where
  | insertAndValidate (view : ViewDefinition Collator) (refs : List NamespaceString)
      (nonempty : refs ≠ []) (pipelineSize : ℕ)
  | remove (viewNss : NamespaceString)

def Call.run (graph : ViewGraph Collator) : Call Collator → Except Failure Unit × ViewGraph Collator
  | .insertAndValidate view refs _ pipelineSize =>
      ViewGraph.insertAndValidate iteration graph view refs pipelineSize
  | .remove viewNss => (.ok (), graph.remove viewNss)

def step (graph : ViewGraph Collator) (call : Call Collator) : Option (ViewGraph Collator) :=
  some (call.run iteration graph).2

/-- What each of some calls returns. -/
def outcomes : ViewGraph Collator → List (Call Collator) → List (Except Failure Unit)
  | _, [] => []
  | graph, call :: calls =>
      (call.run iteration graph).1 :: outcomes (call.run iteration graph).2 calls

/-- A view that is accepted does not reach any namespace through two of its references. -/
def Avoids (graph : ViewGraph Collator) : Call Collator → Prop
  | .insertAndValidate view refs _ pipelineSize =>
      (insertAndValidate iteration graph view refs pipelineSize).1 = .ok () → ¬ SharesReference
          (insertAndValidate iteration graph view refs pipelineSize).2.RefersTo view.name
  | .remove _ => True

variable {iteration} {view : ViewDefinition Collator} {refs : List NamespaceString} {size : ℤ}

theorem insertAndValidate_cases (iteration : IterationOrder) (graph : ViewGraph Collator)
    (view : ViewDefinition Collator) (refs : List NamespaceString) (size : ℤ) :
    insertAndValidate iteration graph view refs size = (.error .invariant, graph) ∨
    ∃ inserted, graph.insertWithoutValidating view refs size = .ok inserted ∧
      ((∃ failure, insertAndValidate iteration graph view refs size =
          (.error failure, inserted.remove view.name)) ∨
        (inserted.validate iteration view.name = .ok () ∧
          insertAndValidate iteration graph view refs size = (.ok (), inserted))) := by
  unfold insertAndValidate
  cases hinsert : graph.insertWithoutValidating view refs size with
  | error failure =>
    simp only [insertWithoutValidating] at hinsert
    split_ifs at hinsert
    cases hinsert
    exact .inl rfl
  | ok inserted =>
    refine .inr ⟨inserted, rfl, ?_⟩
    cases hvalid : inserted.validate iteration view.name with
    | error failure => exact .inl ⟨failure, by simp [hvalid]⟩
    | ok => exact .inr ⟨rfl, by simp [hvalid]⟩

theorem Consistent.run (h : Consistent graph) (iteration : IterationOrder) (call : Call Collator) :
    Consistent (call.run iteration graph).2 := by
  cases call with
  | remove viewNss => exact h.remove viewNss
  | insertAndValidate view refs nonempty size =>
    rw [Call.run]
    obtain heq | ⟨inserted, hinsert, ⟨failure, heq⟩ | ⟨-, heq⟩⟩ :=
      insertAndValidate_cases iteration graph view refs size
    · rwa [heq]
    · rw [heq]
      exact (h.insert nonempty (Int.natCast_nonneg size) hinsert).remove view.name
    · rw [heq]
      exact h.insert nonempty (Int.natCast_nonneg size) hinsert

theorem WithinLimits.run (hgraph : Consistent graph) (h : WithinLimits graph)
    {call : Call Collator} (havoids : Avoids iteration graph call) :
    WithinLimits (call.run iteration graph).2 := by
  cases call with
  | remove viewNss => exact h.of_agrees fun hchildren => (agrees_of_remove hchildren).2
  | insertAndValidate view refs nonempty size =>
    have hrun := hgraph.run iteration (.insertAndValidate view refs nonempty size)
    rw [Call.run] at hrun ⊢
    rw [Avoids] at havoids
    obtain heq | ⟨inserted, hinsert, ⟨failure, heq⟩ | ⟨hvalid, heq⟩⟩ :=
      insertAndValidate_cases iteration graph view refs size
    · rwa [heq]
    · rw [heq]
      refine h.of_agrees fun hchildren => ?_
      obtain ⟨hnss, hremove⟩ := agrees_of_remove hchildren
      obtain ⟨hchildren', hsize, hcollator⟩ := agrees_of_insert hinsert hnss
      exact ⟨hremove.1.trans hchildren', hremove.2.1.trans hsize, hremove.2.2.trans hcollator⟩
    · rw [heq] at hrun havoids ⊢
      exact h.insert hinsert hrun hvalid (havoids rfl)

/-- A call that is rejected leaves the graph as it was exactly if nothing refers to its view or the
view has the size that the node had; no later call tells then that it was made. -/
theorem rejected_leaves_no_trace
    (hrun : Steps (step iteration) (fun _ _ => True) clear graph) {status : Status}
    (h : (insertAndValidate iteration graph view refs size).1 = .error (.status status)) :
    ((insertAndValidate iteration graph view refs size).2 = graph ↔
      (graph view.name).parents = [] ∨ size = (graph view.name).size) ∧
    ((graph view.name).parents = [] ∨ size = (graph view.name).size →
      ∀ later, outcomes iteration (insertAndValidate iteration graph view refs size).2 later =
        outcomes iteration graph later) := by
  have hgraph : Consistent graph := by
    apply hrun.invariant consistent_clear
    rintro graph call _ hgraph - ⟨⟩
    exact hgraph.run iteration call
  obtain heq | ⟨inserted, hinsert, ⟨failure, heq⟩ | ⟨-, heq⟩⟩ :=
    insertAndValidate_cases iteration graph view refs size
  · simp [heq] at h
  · have hsame := hgraph.remove_of_insert hinsert
    rw [heq]
    exact ⟨hsame, fun hcondition later => by rw [hsame.mpr hcondition]⟩
  · simp [heq] at h

/-- As long as no view that is accepted shares a reference, the graph stays within its limits. -/
theorem withinLimits_of_run
    (hrun : Steps (step iteration) (Avoids iteration) (clear : ViewGraph Collator) graph) :
    WithinLimits graph := by
  have hboth : Consistent graph ∧ WithinLimits graph := by
    apply hrun.invariant ⟨consistent_clear, withinLimits_clear⟩
    rintro graph call _ ⟨hgraph, hlimits⟩ havoids ⟨⟩
    exact ⟨hgraph.run iteration call, hlimits.run hgraph havoids⟩
  exact hboth.2

def viewOf (coll : String) : ViewDefinition Unit := ⟨⟨"db", coll⟩, ⟨"db", "base"⟩, [], none⟩

def insertion (coll : String) (ref : String) (rest : List String) (size : ℕ) : Call Unit :=
  .insertAndValidate (viewOf coll) ((ref :: rest).map fun ref => ⟨"db", ref⟩) (cons_ne_nil _ _) size

def graphAfter (calls : List (Call Unit)) : ViewGraph Unit :=
  calls.foldl (fun graph call => (call.run .lastFirst graph).2) clear

/-- The node of a view that was too large keeps its size, because another view refers to it. -/
theorem rejected_leaves_size :
    (outcomes .lastFirst clear [insertion "a" "b" [] 0, insertion "b" "c" [] 16000001,
      insertion "d" "b" [] 1]).map Except.isOk = [true, false, false] ∧
    (outcomes .lastFirst clear [insertion "a" "b" [] 0,
      insertion "d" "b" [] 1]).map Except.isOk = [true, true] := by
  decide +kernel

theorem rejected_leaves_no_trace_tooLarge :
    outcomes .lastFirst (insertAndValidate .lastFirst clear (viewOf "a") [⟨"db", "b"⟩] 16000001).2
      [insertion "a" "b" [] 1] = outcomes .lastFirst clear [insertion "a" "b" [] 1] :=
  (rejected_leaves_no_trace (Steps.refl _) (show _ = Except.error (Failure.status
    ⟨ErrorCodes.ViewPipelineMaxSizeExceeded,
      "View pipeline is too large and exceeds the maximum size of 16000000 bytes"⟩) by rfl)).2
    (.inl rfl) _

theorem withinLimits_of_run_single : WithinLimits (graphAfter [insertion "a" "b" [] 1]) := by
  refine withinLimits_of_run (.single ⟨insertion "a" "b" [] 1, ?_, rfl⟩)
  rintro hok ⟨nss, child, child', -, -, hchild, hchild', hne, -⟩
  obtain heq | ⟨inserted, hinsert, ⟨failure, heq⟩ | ⟨-, heq⟩⟩ :=
    insertAndValidate_cases .lastFirst clear (viewOf "a") [⟨"db", "b"⟩] 1
  · simp [heq] at hok
  · simp [heq] at hok
  · have hnode := (insertWithoutValidating_eq_ok hinsert).2.2 nss
    simp [heq, RefersTo, hnode, clear] at hchild hchild'
    exact hne (hchild.2.trans hchild'.2.symm)

/-- Three views of six million bytes each, on top of each other. -/
theorem sharedReference_exceeds :
    let graph := graphAfter [insertion "x" "base" [] 6000000, insertion "y" "x" [] 6000000,
      insertion "v" "y" ["x"] 6000000]
    Way graph.RefersTo ⟨"db", "v"⟩ [⟨"db", "v"⟩, ⟨"db", "y"⟩, ⟨"db", "x"⟩] ⟨"db", "base"⟩ ∧
      pathSize graph [⟨"db", "v"⟩, ⟨"db", "y"⟩, ⟨"db", "x"⟩] > kMaxViewPipelineSizeBytes := by
  refine ⟨.cons ?_ (.cons ?_ (.cons ?_ (.nil _))), ?_⟩
  all_goals decide +kernel

end Calls

end MongoServer.ViewGraph
