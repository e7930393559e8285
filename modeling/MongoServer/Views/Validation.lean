import Mathlib.Logic.Relation
import MongoServer.Transition.Runs
import MongoServer.Views.ViewGraph

/-!
What the validation of a view guarantees. Both searches leave behind heights and sizes that bound
every chain of references: the one upwards always, the one downwards if no namespace is found a
second time, because a child that was checked before does not count.
-/
namespace MongoServer.ViewGraph
open Function Transition List

open Relation

variable {Collator : Type} {graph : ViewGraph Collator} {levels : ℕ} {loop : StatsMap × ℤ × ℤ}
  {visit : NamespaceString → StatsMap → Except Failure StatsMap}

/-- The heights and sizes of the nodes that are checked grow along the given relation. -/
structure Measured (graph : ViewGraph Collator) (next : NamespaceString → NamespaceString → Prop)
    (stats : StatsMap) : Prop where
  nonneg : ∀ nss, 0 ≤ (stats nss).cumulativeSize
  own : ∀ nss, (stats nss).checked → 1 ≤ (stats nss).height ∧
    (graph nss).size ≤ (stats nss).cumulativeSize
  next : ∀ nss other, (stats nss).checked → next nss other → (stats other).checked ∧
    (stats other).height + 1 ≤ (stats nss).height ∧
    (stats other).cumulativeSize + (graph nss).size ≤ (stats nss).cumulativeSize

section Measured

variable {next : NamespaceString → NamespaceString → Prop} {stats stats' : StatsMap}
  {current : NamespaceString}

theorem measured_empty : Measured graph next fun _ => {} where
  nonneg := fun _ => le_rfl
  own := fun _ h => absurd h (by simp)
  next := fun _ _ h => absurd h (by simp)

theorem Measured.update (h : Measured graph next stats) (hsize : 0 ≤ (graph current).size)
    (hfresh : (stats current).checked = false) (hirrefl : ¬ next current current)
    {maxHeight maxSize : ℤ} (hmaxHeight : 0 ≤ maxHeight) (hmaxSize : 0 ≤ maxSize)
    (hnext : ∀ other, next current other → (stats other).checked ∧
      (stats other).height ≤ maxHeight ∧ (stats other).cumulativeSize ≤ maxSize) :
    Measured graph next (update stats current ⟨true, maxHeight + 1,
      (stats current).cumulativeSize + (maxSize + (graph current).size)⟩) := by
  have hnonneg := h.nonneg current
  constructor
  · intro nss
    by_cases hnss : nss = current
    · subst hnss
      simp only [update_self]
      omega
    · simpa [update_of_ne hnss] using h.nonneg nss
  · intro nss hchecked
    by_cases hnss : nss = current
    · subst hnss
      simp only [update_self]
      omega
    · rw [update_of_ne hnss] at hchecked ⊢
      exact h.own nss hchecked
  · intro nss other hchecked hother
    by_cases hnss : nss = current
    · subst hnss
      have hne : other ≠ nss := by
        rintro rfl
        exact hirrefl hother
      obtain ⟨hchecked', hheight, hcumulative⟩ := hnext other hother
      simp only [update_self, update_of_ne hne]
      exact ⟨hchecked', by omega, by omega⟩
    · rw [update_of_ne hnss] at hchecked ⊢
      obtain ⟨hchecked', hbounds⟩ := h.next nss other hchecked hother
      have hne : other ≠ current := by
        rintro rfl
        simp [hfresh] at hchecked'
      rw [update_of_ne hne]
      exact ⟨hchecked', hbounds⟩

/-- What a search from a node does to the statistics. -/
structure Visits (graph : ViewGraph Collator) (next : NamespaceString → NamespaceString → Prop)
    (current : NamespaceString) (stats stats' : StatsMap) : Prop where
  measured : Measured graph next stats'
  checked : (stats' current).checked
  keeps : ∀ nss, (stats nss).checked → stats' nss = stats nss
  reached : ∀ nss, (stats' nss).checked → (stats nss).checked ∨ ReflTransGen next current nss

/-- The state of the loop over what comes next after a node, when some of it is done. -/
structure VisitLoop (graph : ViewGraph Collator)
    (next : NamespaceString → NamespaceString → Prop) (stats : StatsMap)
    (done : List NamespaceString) (loop : StatsMap × ℤ × ℤ) : Prop where
  measured : Measured graph next loop.1
  keeps : ∀ nss, (stats nss).checked → loop.1 nss = stats nss
  reached : ∀ nss, (loop.1 nss).checked → (stats nss).checked ∨
    ∃ other ∈ done, ReflTransGen next other nss
  height_nonneg : 0 ≤ loop.2.1
  size_nonneg : 0 ≤ loop.2.2
  done : ∀ other ∈ done, (loop.1 other).checked ∧ (loop.1 other).height ≤ loop.2.1 ∧
    (loop.1 other).cumulativeSize ≤ loop.2.2

theorem visitLoop_nil (h : Measured graph next stats) :
    VisitLoop graph next stats [] (stats, 0, 0) where
  measured := h
  keeps := fun _ _ => rfl
  reached := fun _ hnss => .inl hnss
  height_nonneg := le_rfl
  size_nonneg := le_rfl
  done := by simp

theorem VisitLoop.step {done : List NamespaceString}
    {other : NamespaceString} (h : VisitLoop graph next stats done loop)
    (hvisits : ((loop.1 other).checked ∧ stats' = loop.1) ∨ Visits graph next other loop.1 stats') :
    VisitLoop graph next stats (done ++ [other]) (stats', max loop.2.1 (stats' other).height,
      max loop.2.2 (stats' other).cumulativeSize) := by
  have hmeasured : Measured graph next stats' := by
    rcases hvisits with ⟨-, rfl⟩ | hvisits
    · exact h.measured
    · exact hvisits.measured
  have hkeeps : ∀ nss, (loop.1 nss).checked → stats' nss = loop.1 nss := by
    rcases hvisits with ⟨-, rfl⟩ | hvisits
    · exact fun _ _ => rfl
    · exact hvisits.keeps
  have hother : (stats' other).checked := by
    rcases hvisits with ⟨hchecked, rfl⟩ | hvisits
    · exact hchecked
    · exact hvisits.checked
  have hnew : ∀ nss, (stats' nss).checked → (loop.1 nss).checked ∨ ReflTransGen next other nss := by
    rcases hvisits with ⟨-, rfl⟩ | hvisits
    · exact fun _ hnss => .inl hnss
    · exact hvisits.reached
  constructor
  · exact hmeasured
  · intro nss hnss
    have hloop := h.keeps nss hnss
    exact (hkeeps nss (hloop ▸ hnss)).trans hloop
  · intro nss hnss
    rcases hnew nss hnss with hold | hreached
    · rcases h.reached nss hold with hstats | ⟨earlier, hearlier, hpath⟩
      · exact .inl hstats
      · exact .inr ⟨earlier, mem_append_left _ hearlier, hpath⟩
    · exact .inr ⟨other, by simp, hreached⟩
  · exact h.height_nonneg.trans (le_max_left _ _)
  · exact h.size_nonneg.trans (le_max_left _ _)
  · refine forall_mem_append.mpr ⟨fun nss hdone => ?_,
      forall_mem_singleton.mpr ⟨hother, le_max_right _ _, le_max_right _ _⟩⟩
    obtain ⟨hchecked, hheight, hcumulative⟩ := h.done nss hdone
    simp only [hkeeps nss hchecked]
    exact ⟨hchecked, hheight.trans (le_max_left _ _), hcumulative.trans (le_max_left _ _)⟩

theorem VisitLoop.finish {order : List NamespaceString} (h : VisitLoop graph next stats order loop)
    (horder : ∀ other, other ∈ order ↔ next current other) (hsize : 0 ≤ (graph current).size)
    (hacyclic : ¬ TransGen next current current) (hfresh : (stats current).checked = false) :
    Visits graph next current stats (update loop.1 current ⟨true, loop.2.1 + 1,
      (loop.1 current).cumulativeSize + (loop.2.2 + (graph current).size)⟩) := by
  have hstill : (loop.1 current).checked = false := by
    by_contra hchecked
    rw [Bool.not_eq_false] at hchecked
    rcases h.reached current hchecked with hold | ⟨other, hother, hpath⟩
    · simp [hfresh] at hold
    · exact hacyclic (TransGen.head' ((horder other).mp hother) hpath)
  constructor
  · apply h.measured.update hsize hstill (fun hself => hacyclic (.single hself)) h.height_nonneg
      h.size_nonneg
    intro other hother
    exact h.done other ((horder other).mpr hother)
  · simp
  · intro nss hnss
    have hne : nss ≠ current := by
      rintro rfl
      simp [hfresh] at hnss
    rw [update_of_ne hne]
    exact h.keeps nss hnss
  · intro nss hnss
    by_cases heq : nss = current
    · exact .inr (heq ▸ .refl)
    · rw [update_of_ne heq] at hnss
      rcases h.reached nss hnss with hold | ⟨other, hother, hpath⟩
      · exact .inl hold
      · exact .inr (.head ((horder other).mp hother) hpath)

end Measured

section Parents

variable [DecidableEq Collator] {iteration : IterationOrder}

theorem visitParent_eq_ok {current parent : NamespaceString} {loop loop' : StatsMap × ℤ × ℤ}
    (h : visitParent graph visit current loop parent = .ok loop') :
    checkCollators graph current parent = .ok () ∧
      ∃ stats', (((loop.1 parent).checked ∧ stats' = loop.1) ∨
          ((loop.1 parent).checked = false ∧ visit parent loop.1 = .ok stats')) ∧
        loop' = (stats', max loop.2.1 (stats' parent).height,
          max loop.2.2 (stats' parent).cumulativeSize) := by
  obtain ⟨_, hcheck, h⟩ := bind_eq_ok.mp h
  obtain ⟨stats', hstats, h⟩ := bind_eq_ok.mp h
  injection h with h
  refine ⟨hcheck, stats', ?_, h.symm⟩
  by_cases hchecked : (loop.1 parent).checked
  · rw [if_pos hchecked] at hstats
    injection hstats with hstats
    exact .inl ⟨hchecked, hstats.symm⟩
  · rw [if_neg hchecked] at hstats
    exact .inr ⟨by simpa using hchecked, hstats⟩

/-- A search upwards that succeeds has measured all that refers to the node. -/
theorem validateParents_visits {next : NamespaceString → NamespaceString → Prop}
    (hnext : ∀ nss other, other ∈ (graph nss).parents ↔ next nss other)
    (hsize : ∀ nss, 0 ≤ (graph nss).size) (hacyclic : ∀ nss, ¬ TransGen next nss nss)
    {current : NamespaceString} {stats stats' : StatsMap}
    (hmeasured : Measured graph next stats) (hfresh : (stats current).checked = false)
    (h : validateParents iteration graph levels current stats = .ok stats') :
    Visits graph next current stats stats' ∧
      ∀ parent, next current parent → checkCollators graph current parent = .ok () := by
  induction levels generalizing current stats stats' with
  | zero => simp [validateParents] at h
  | succ levels ih =>
    have horder (other : NamespaceString) :
        other ∈ iteration.order (graph current).parents ↔ next current other := by
      rw [iteration.mem_order, hnext]
    rw [validateParents, bind_eq_ok] at h
    obtain ⟨loop, hloop, h⟩ := h
    obtain ⟨hvisit, hcheck⟩ := foldlM_invariant
      (P := fun done loop => VisitLoop graph next stats done loop ∧
        ∀ parent ∈ done, checkCollators graph current parent = .ok ())
      ⟨visitLoop_nil hmeasured, by simp⟩ (fun done parent _ loop loop' hdone hround => by
        obtain ⟨hcheck, stats', hcases, rfl⟩ := visitParent_eq_ok hround
        refine ⟨hdone.1.step ?_, forall_mem_append.mpr ⟨hdone.2, forall_mem_singleton.mpr hcheck⟩⟩
        rcases hcases with hold | ⟨hnew, hrun⟩
        · exact .inl hold
        · exact .inr (ih hdone.1.measured hnew hrun).1) hloop
    simp only at h
    split_ifs at h
    injection h with h
    rw [← h]
    exact ⟨hvisit.finish horder (hsize current) (hacyclic current) hfresh,
      fun parent hparent => hcheck parent ((horder parent).mpr hparent)⟩

end Parents

section Children

variable [DecidableEq Collator] {iteration : IterationOrder}

variable {current start : NamespaceString} {stats stats' : StatsMap}
  {traversalIds : List NamespaceString}

theorem visitChild_eq_ok {child : NamespaceString} {loop loop' : StatsMap × ℤ × ℤ}
    (h : visitChild graph visit current loop child = .ok loop') :
    ((loop.1 child).checked ∧ loop' = loop) ∨
      ∃ stats', checkCollators graph current child = .ok () ∧ visit child loop.1 = .ok stats' ∧
        loop' = (stats', max loop.2.1 (stats' child).height,
          max loop.2.2 (stats' child).cumulativeSize) := by
  unfold visitChild at h
  by_cases hchecked : (loop.1 child).checked
  · rw [if_pos hchecked] at h
    injection h with h
    exact .inl ⟨hchecked, h.symm⟩
  · rw [if_neg hchecked] at h
    obtain ⟨_, hcheck, h⟩ := bind_eq_ok.mp h
    obtain ⟨stats', hstats, h⟩ := bind_eq_ok.mp h
    injection h with h
    exact .inr ⟨stats', hcheck, hstats, h.symm⟩

theorem validateChildren_succ_eq_ok
    (h : validateChildren iteration graph start (levels + 1) current traversalIds stats = .ok stats') :
    ¬ (levels < kMaxViewDepth ∧ current = start) ∧
      ∃ loop, (iteration.order (graph current).children).foldlM
          (visitChild graph (fun child stats =>
            validateChildren iteration graph start levels child (current :: traversalIds) stats)
            current) (stats, 0, 0) = .ok loop ∧
        stats' = update loop.1 current ⟨true, loop.2.1 + 1,
          (loop.1 current).cumulativeSize + (loop.2.2 + (graph current).size)⟩ := by
  rw [validateChildren] at h
  by_cases hcycle : levels < kMaxViewDepth ∧ current = start
  · simp [hcycle] at h
  · rw [if_neg hcycle, bind_eq_ok] at h
    obtain ⟨loop, hloop, h⟩ := h
    injection h with h
    exact ⟨hcycle, loop, hloop, h.symm⟩

/-- All that the checked nodes refer to is checked, and it is not the starting node. -/
def ClosedBelow (graph : ViewGraph Collator) (start : NamespaceString) (stats : StatsMap) : Prop :=
  ∀ nss, (stats nss).checked → ∀ child ∈ (graph nss).children, (stats child).checked ∧ child ≠ start

/-- What a search below the starting node does: it does not come back to it. -/
structure SearchesBelow (graph : ViewGraph Collator) (start : NamespaceString)
    (stats stats' : StatsMap) : Prop where
  closed : ClosedBelow graph start stats'
  start : (stats' start).checked = false
  grows : ∀ nss, (stats nss).checked → (stats' nss).checked

theorem searchesBelow_loop
    (hvisit : ∀ child stats stats', ClosedBelow graph start stats → (stats start).checked = false → validateChildren iteration graph start levels child (current :: traversalIds) stats = .ok stats' → child ≠ start ∧ (stats' child).checked ∧ SearchesBelow graph start stats stats')
    (hclosed : ClosedBelow graph start stats) (hstart : (stats start).checked = false)
    (h : (iteration.order (graph current).children).foldlM (visitChild graph (fun child stats => validateChildren iteration graph start levels child (current :: traversalIds) stats) current) (stats, 0, 0) = .ok loop) :
    SearchesBelow graph start stats loop.1 ∧
      ∀ child ∈ (graph current).children, (loop.1 child).checked ∧ child ≠ start := by
  have hinvariant := foldlM_invariant
    (P := fun done (loop : StatsMap × ℤ × ℤ) => SearchesBelow graph start stats loop.1 ∧
      ∀ child ∈ done, (loop.1 child).checked ∧ child ≠ start)
    ⟨⟨hclosed, hstart, fun _ hnss => hnss⟩, by simp⟩
    (fun done child _ loop loop' hdone hround => by
      obtain ⟨hsearch, hdone⟩ := hdone
      rcases visitChild_eq_ok hround with ⟨hchecked, rfl⟩ | ⟨stats', -, hrun, rfl⟩
      · refine ⟨hsearch, ?_⟩
        refine forall_mem_append.mpr ⟨hdone, forall_mem_singleton.mpr ⟨hchecked, ?_⟩⟩
        rintro rfl
        simp [hsearch.start] at hchecked
      · obtain ⟨hne, hchecked, hnext⟩ := hvisit child loop.1 stats' hsearch.closed hsearch.start hrun
        exact ⟨⟨hnext.closed, hnext.start, fun nss hnss => hnext.grows nss (hsearch.grows nss hnss)⟩,
          forall_mem_append.mpr ⟨fun other hother => (hdone other hother).imp_left (hnext.grows other),
            forall_mem_singleton.mpr ⟨hchecked, hne⟩⟩⟩) h
  refine ⟨hinvariant.1, ?_⟩
  intro child hchild
  exact hinvariant.2 child ((iteration.mem_order _ _).mpr hchild)

omit [DecidableEq Collator] in
theorem closedBelow_update (new : NodeStats) (hclosed : ClosedBelow graph start stats)
    (hnew : new.checked = true)
    (hchildren : ∀ child ∈ (graph current).children, (stats child).checked ∧ child ≠ start) :
    ClosedBelow graph start (update stats current new) := by
  have hgrows : ∀ nss, (stats nss).checked → (update stats current new nss).checked := by
    intro nss hnss
    by_cases heq : nss = current
    · rw [heq, update_self]
      exact hnew
    · rwa [update_of_ne heq]
  intro nss hnss child hchild
  by_cases heq : nss = current
  · subst heq
    exact ⟨hgrows child (hchildren child hchild).1, (hchildren child hchild).2⟩
  · rw [update_of_ne heq] at hnss
    obtain ⟨hchecked, hne⟩ := hclosed nss hnss child hchild
    exact ⟨hgrows child hchecked, hne⟩

theorem validateChildren_searchesBelow (hlevels : levels ≤ kMaxViewDepth)
    (hclosed : ClosedBelow graph start stats) (hstart : (stats start).checked = false)
    (h : validateChildren iteration graph start levels current traversalIds stats = .ok stats') :
    current ≠ start ∧ (stats' current).checked ∧ SearchesBelow graph start stats stats' := by
  induction levels generalizing current traversalIds stats stats' with
  | zero =>
    rw [validateChildren] at h
    split_ifs at h
  | succ levels ih =>
    obtain ⟨hcycle, loop, hloop, rfl⟩ := validateChildren_succ_eq_ok h
    have hne : current ≠ start := fun heq => hcycle ⟨hlevels, heq⟩
    obtain ⟨hsearch, hchildren⟩ := searchesBelow_loop
      (fun child stats stats' hc hs hrun => ih (by omega) hc hs hrun) hclosed hstart hloop
    refine ⟨hne, by simp, closedBelow_update _ hsearch.closed rfl hchildren, ?_, ?_⟩
    · rw [update_of_ne hne.symm]
      exact hsearch.start
    · intro nss hnss
      by_cases heq : nss = current
      · simp [heq]
      · rw [update_of_ne heq]
        exact hsearch.grows nss hnss

/-- A search downwards that succeeds has found no way back to where it started. -/
theorem validateChildren_acyclic
    (h : validateChildren iteration graph start (kMaxViewDepth + 1) start [] (fun _ => {}) = .ok stats') :
    ¬ TransGen (fun nss child => child ∈ (graph nss).children) start start := by
  obtain ⟨-, loop, hloop, rfl⟩ := validateChildren_succ_eq_ok h
  have hempty : ClosedBelow graph start fun _ => {} := fun _ hnss => absurd hnss (by simp)
  obtain ⟨hsearch, hchildren⟩ := searchesBelow_loop
    (fun child stats stats' hc hs hrun => validateChildren_searchesBelow le_rfl hc hs hrun)
    hempty rfl hloop
  have hclosed := closedBelow_update ⟨true, loop.2.1 + 1,
    (loop.1 start).cumulativeSize + (loop.2.2 + (graph start).size)⟩ hsearch.closed rfl hchildren
  have hreached : ∀ nss, ReflTransGen (fun nss child => child ∈ (graph nss).children) start nss →
      (update loop.1 start (⟨true, loop.2.1 + 1,
        (loop.1 start).cumulativeSize + (loop.2.2 + (graph start).size)⟩ : NodeStats)
        nss).checked := by
    intro nss hpath
    induction hpath with
    | refl => simp
    | tail _ hlast ih => exact (hclosed _ ih _ hlast).1
  intro hcycle
  obtain ⟨last, hpath, hlast⟩ := TransGen.tail'_iff.mp hcycle
  exact (hclosed last (hreached last hpath) start hlast).2 rfl

/-- Two references of one view, which can be reached from the given one, lead to one namespace. -/
def SharesReference (next : NamespaceString → NamespaceString → Prop)
    (start : NamespaceString) : Prop :=
  ∃ nss child child' shared, ReflTransGen next start nss ∧ next nss child ∧ next nss child' ∧
    child ≠ child' ∧ ReflTransGen next child shared ∧ ReflTransGen next child' shared

/-- A search downwards that succeeds has measured all that the node refers to, if nothing of it
was checked before and nothing is found twice. -/
theorem validateChildren_visits {next : NamespaceString → NamespaceString → Prop}
    (hnext : ∀ nss other, other ∈ (graph nss).children ↔ next nss other)
    (hsize : ∀ nss, 0 ≤ (graph nss).size) (hacyclic : ∀ nss, ¬ TransGen next nss nss)
    (hshares : ¬ SharesReference next start)
    (hpath : ReflTransGen next start current) (hmeasured : Measured graph next stats)
    (hfresh : ∀ nss, ReflTransGen next current nss → (stats nss).checked = false)
    (h : validateChildren iteration graph start levels current traversalIds stats = .ok stats') :
    Visits graph next current stats stats' ∧
      ∀ child, next current child → checkCollators graph current child = .ok () := by
  induction levels generalizing current traversalIds stats stats' with
  | zero =>
    rw [validateChildren] at h
    split_ifs at h
  | succ levels ih =>
    have horder (other : NamespaceString) :
        other ∈ iteration.order (graph current).children ↔ next current other := by
      rw [iteration.mem_order, hnext]
    obtain ⟨-, loop, hloop, rfl⟩ := validateChildren_succ_eq_ok h
    obtain ⟨hvisit, hcheck⟩ := foldlM_invariant_of_split
      (P := fun done loop => VisitLoop graph next stats done loop ∧
        ∀ child ∈ done, checkCollators graph current child = .ok ())
      ⟨visitLoop_nil hmeasured, by simp⟩ (fun done child rest hsplit loop loop' hdone hround => by
        obtain ⟨hdone, hcheck⟩ := hdone
        have hchild : next current child := (horder child).mp (by simp [hsplit])
        -- what lies below this child is not below the children before it
        have hfresh' : ∀ nss, ReflTransGen next child nss → (loop.1 nss).checked = false := by
          intro nss hnss
          by_contra hchecked
          rw [Bool.not_eq_false] at hchecked
          rcases hdone.reached nss hchecked with hold | ⟨earlier, hearlier, hshared⟩
          · simp [hfresh nss (.head hchild hnss)] at hold
          · have hnodup := iteration.nodup_order (graph current).children
            rw [hsplit] at hnodup
            have hne : earlier ≠ child := by
              rintro rfl
              exact (nodup_append.mp hnodup).2.2 earlier hearlier earlier mem_cons_self rfl
            exact hshares ⟨current, earlier, child, nss, hpath,
              (horder earlier).mp (by simp [hsplit, hearlier]), hchild, hne, hshared, hnss⟩
        rcases visitChild_eq_ok hround with ⟨hchecked, -⟩ | ⟨stats', hone, hrun, rfl⟩
        · simp [hfresh' child .refl] at hchecked
        · exact ⟨hdone.step (.inr (ih (hpath.tail hchild) hdone.measured hfresh' hrun).1),
            forall_mem_append.mpr ⟨hcheck, forall_mem_singleton.mpr hone⟩⟩) hloop
    exact ⟨hvisit.finish horder (hsize current) (hacyclic current) (hfresh current .refl),
      fun child hchild => hcheck child ((horder child).mpr hchild)⟩

end Children

end MongoServer.ViewGraph
