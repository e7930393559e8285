import MongoServer.Sharding.RangeLookup
import MongoServer.Ranges.SortedRanges

/-!
Which shards the bounds of a query are sent to. Up to the first field with more than a point
the bounds are a product, and the fields after it are covered from their first start to their
last end, so that the closed ranges hold every key within the bounds. The owner of such a key
is always found, but a range that starts at the highest key stops the lookup.
-/
namespace MongoServer
open Ranges Transition ShardKeyPattern BSONObj BSONValue ChunkManager List OrderedIntervalList

abbrev FieldBounds := CString × OrderedIntervalList

namespace FieldBounds

variable (field : FieldBounds)

def first : CString × BSONValue :=
  (field.1, (field.2.intervals.headD noInterval).start)

def last : CString × BSONValue :=
  (field.1, (field.2.intervals.getLastD noInterval).stop)

end FieldBounds

open FieldBounds (first last)

section Flatten

/-- The closed range for one interval of a field. -/
def rangeOf (before : List FieldBounds) (field : FieldBounds) (after : List FieldBounds)
    (i : Interval) : BSONObj × BSONObj :=
  (before.map first ++ (field.1, i.start) :: after.map first,
    before.map last ++ (field.1, i.stop) :: after.map last)

/-- The field that makes the ranges: the first with more than a point, or else the last. -/
structure RangeField (fields before : List FieldBounds) (field : FieldBounds)
    (after : List FieldBounds) : Prop where
  fields_eq : fields = before ++ field :: after
  points : ∀ p ∈ before, isSinglePoint p.2 = true
  first : isSinglePoint field.2 = true → after = []

variable {fields before after : List FieldBounds} {field : FieldBounds} {builders : BoundList}

theorem exists_rangeField (h : fields ≠ []) :
    ∃ before field after, RangeField fields before field after := by
  induction fields with
  | nil => exact absurd rfl h
  | cons field rest ih =>
    by_cases hpoint : isSinglePoint field.2 = true ∧ rest ≠ []
    · obtain ⟨before, f, after, hsplit⟩ := ih hpoint.2
      refine ⟨field :: before, f, after, ?_, ?_, hsplit.first⟩
      · rw [hsplit.fields_eq]
        rfl
      · exact forall_mem_cons.mpr ⟨hpoint.1, hsplit.points⟩
    · refine ⟨[], field, rest, rfl, fun p hp => absurd hp not_mem_nil, fun hp => ?_⟩
      by_contra hne
      exact hpoint ⟨hp, hne⟩

theorem isSinglePoint_intervals {oil : OrderedIntervalList} (h : isSinglePoint oil = true) :
    ∃ i, oil.intervals = [i] := by
  rw [isSinglePoint, Bool.and_eq_true, decide_eq_true_eq] at h
  exact length_eq_one_iff.mp h.1

theorem flattenFields_points (l u : BSONObj) (rest : List FieldBounds)
    (h : ∀ p ∈ before, isSinglePoint p.2 = true) :
    flattenFields true [(l, u)] (before ++ rest) =
      flattenFields true [(l ++ before.map first, u ++ before.map last)]
        rest := by
  induction before generalizing l u with
  | nil => simp
  | cons field before ih =>
    have hfield := h field mem_cons_self
    obtain ⟨i, hi⟩ := isSinglePoint_intervals hfield
    rw [cons_append, flattenFields]
    simp only [if_true, hfield, appendToAll, map_cons, map_nil]
    rw [ih _ _ (forall_mem_cons.mp h).2]
    simp only [first, last, hi, headD_cons, append_assoc, singleton_append]
    rfl

theorem flattenFields_after (builders : BoundList) (after : List FieldBounds) :
    flattenFields false builders after = .ok (builders.map fun b =>
      (b.1 ++ after.map first, b.2 ++ after.map last)) := by
  induction after generalizing builders with
  | nil => simp [flattenFields]
  | cons field after ih =>
    rw [flattenFields]
    simp only [Bool.false_eq_true, if_false]
    rw [ih]
    simp [appendToAll, first, last]

theorem foldlM_emplaceInterval (fieldName : CString) (b : BSONObj × BSONObj)
    (intervals : List Interval) (new : BoundList) (hnew : new.length ≤ kMaxFlattenedInCombinations)
    (r : BoundList) :
    intervals.foldlM (emplaceInterval fieldName b) new = .ok r ↔
      new.length + intervals.length ≤ kMaxFlattenedInCombinations ∧
        r = new ++ intervals.map fun i =>
          (b.1 ++ [(fieldName, i.start)], b.2 ++ [(fieldName, i.stop)]) := by
  induction intervals generalizing new with
  | nil =>
    simp only [foldlM_nil, length_nil, Nat.add_zero, hnew, true_and, map_nil, append_nil]
    constructor
    · intro h
      exact (Except.ok.inj h).symm
    · rintro rfl
      rfl
  | cons i rest ih =>
    rw [foldlM_cons, bind_eq_ok]
    by_cases hlt : new.length < kMaxFlattenedInCombinations
    · simp only [emplaceInterval, hlt, if_true, Except.ok.injEq, exists_eq_left']
      rw [ih _ (by simpa using hlt)]
      have hlength : (new ++
          [(b.1 ++ [(fieldName, i.start)], b.2 ++ [(fieldName, i.stop)])]).length + rest.length =
          new.length + (i :: rest).length := by
        simp only [length_append, length_cons, length_nil]
        omega
      rw [hlength, append_assoc]
      rfl
    · simp only [emplaceInterval, hlt, if_false, reduceCtorEq, false_and, exists_false,
        length_cons, false_iff, not_and]
      intro hle
      omega

/-- One range for each interval of the field, unless there are too many. -/
theorem flattenFields_eq (h : RangeField fields before field after) (r : BoundList) :
    flattenFields true [([], [])] fields = .ok r ↔
      field.2.intervals.length ≤ kMaxFlattenedInCombinations ∧
        r = field.2.intervals.map (rangeOf before field after) := by
  rw [h.fields_eq, flattenFields_points _ _ _ h.points, nil_append, nil_append, flattenFields]
  simp only [if_true]
  by_cases hpoint : isSinglePoint field.2 = true
  · obtain ⟨i, hi⟩ := isSinglePoint_intervals hpoint
    have hafter := h.first hpoint
    subst hafter
    simp only [hpoint, if_true, flattenFields, hi, appendToAll, rangeOf, map_cons,
      map_nil, headD_cons, length_singleton, Except.ok.injEq]
    constructor
    · intro heq
      exact ⟨by decide, heq.symm⟩
    · rintro ⟨-, heq⟩
      exact heq.symm
  · rw [if_neg hpoint, bind_eq_ok, multiplyBuilders]
    simp only [foldlM_cons, foldlM_nil, bind_eq_ok]
    constructor
    · rintro ⟨new, ⟨built, hbuilt, hnew⟩, hr⟩
      cases hnew
      obtain ⟨hlength, rfl⟩ := (foldlM_emplaceInterval _ _ _ _ (Nat.zero_le _) _).mp hbuilt
      rw [flattenFields_after] at hr
      refine ⟨by simpa using hlength, ?_⟩
      rw [← Except.ok.inj hr]
      simp [rangeOf]
    · rintro ⟨hlength, rfl⟩
      refine ⟨_, ⟨_, (foldlM_emplaceInterval _ _ _ _ (Nat.zero_le _) _).mpr
        ⟨by simpa using hlength, rfl⟩, rfl⟩, ?_⟩
      rw [flattenFields_after]
      simp [rangeOf]

end Flatten

section Corners
variable {fields before after : List FieldBounds} {field : FieldBounds} {i : Interval}
  {v : BSONValue}

theorem FieldBounds.eq_cons_first (hne : field.2.intervals ≠ []) :
    ∃ front rest, field.2.intervals = front :: rest ∧ field.first = (field.1, front.start) := by
  obtain ⟨front, rest, heq⟩ := exists_cons_of_ne_nil hne
  exact ⟨front, rest, heq, by rw [first, heq, headD_cons]⟩

theorem FieldBounds.eq_append_last (hne : field.2.intervals ≠ []) :
    ∃ init back, field.2.intervals = init ++ [back] ∧ field.last = (field.1, back.stop) := by
  obtain ⟨init, back, heq⟩ := field.2.intervals.eq_nil_or_concat'.resolve_left hne
  refine ⟨init, back, heq, ?_⟩
  rw [last, heq, getLastD_concat]

theorem FieldBounds.first_le_last (hvalid : field.2.isValidFor 1 = true)
    (hi : i ∈ field.2.intervals) :
    field.first.2.rank ≤ i.start.rank ∧ i.stop.rank ≤ field.last.2.rank := by
  have hne := ne_nil_of_mem hi
  have hpairs := pairwise_ascend hvalid
  constructor
  · obtain ⟨front, rest, heq, hfirst⟩ := field.eq_cons_first hne
    have hfront := start_le_stop hvalid (heq ▸ mem_cons_self : front ∈ field.2.intervals)
    rw [hfirst]
    rw [heq] at hi hpairs
    rcases mem_cons.mp hi with rfl | hi
    · exact le_refl _
    · exact hfront.trans (rel_of_pairwise_cons hpairs hi)
  · obtain ⟨init, back, heq, hlast⟩ := field.eq_append_last hne
    have hback := start_le_stop hvalid
      (heq ▸ mem_append_right _ mem_cons_self : back ∈ field.2.intervals)
    rw [hlast]
    rw [heq] at hi hpairs
    rcases mem_append.mp hi with hi | hi
    · exact ((pairwise_append.mp hpairs).2.2 i hi back mem_cons_self).trans hback
    · rw [mem_singleton.mp hi]

theorem FieldBounds.bounds_of_contains (hvalid : field.2.isValidFor 1 = true)
    (h : field.2.contains v = true) : field.first.2.rank ≤ v.rank ∧ v.rank ≤ field.last.2.rank := by
  obtain ⟨i, hi, hv⟩ := any_eq_true.mp h
  have hin := Interval.bounds_of_contains hv
  have hends := FieldBounds.first_le_last hvalid hi
  exact ⟨hends.1.trans hin.1, hin.2.trans hends.2⟩

/-- A value for every field, under its name, that lies in one of the field's intervals. -/
def Within (fields : List FieldBounds) (k : BSONObj) : Prop :=
  List.Forall₂ (fun field e => field.1 = e.1 ∧ field.2.contains e.2 = true) fields k

theorem Within.corners {k : BSONObj} (h : Within fields k)
    (hvalid : ∀ f ∈ fields, f.2.isValidFor 1 = true) :
    FieldsLe (fields.map first) k ∧ k.FieldsLe (fields.map last) := by
  induction h with
  | nil => exact ⟨.nil, .nil⟩
  | @cons field e fields k hfield h ih =>
    obtain ⟨hfirst, hlast⟩ := ih (forall_mem_cons.mp hvalid).2
    have hends := FieldBounds.bounds_of_contains (hvalid field mem_cons_self) hfield.2
    exact ⟨.cons ⟨hfield.1, hends.1⟩ hfirst, .cons ⟨hfield.1.symm, hends.2⟩ hlast⟩

theorem Within.append {k : BSONObj} (h : Within (before ++ after) k) :
    ∃ k₁ k₂, k = k₁ ++ k₂ ∧ Within before k₁ ∧ Within after k₂ := by
  induction before generalizing k with
  | nil => exact ⟨[], k, rfl, .nil, h⟩
  | cons field before ih =>
    obtain ⟨e, k', hfield, h', rfl⟩ := forall₂_cons_left_iff.mp h
    obtain ⟨k₁, k₂, rfl, h₁, h₂⟩ := ih h'
    exact ⟨e :: k₁, k₂, rfl, .cons hfield h₁, h₂⟩

/-- A key within the bounds lies in one of the ranges. -/
theorem Within.exists_range {k : BSONObj} (h : Within (before ++ field :: after) k)
    (hvalid : ∀ f ∈ before ++ field :: after, f.2.isValidFor 1 = true) :
    ∃ i ∈ field.2.intervals, (rangeOf before field after i).1.rank ≤ k.rank ∧
      k.rank ≤ (rangeOf before field after i).2.rank := by
  obtain ⟨k₁, k', rfl, hbefore, h'⟩ := h.append
  obtain ⟨e, k₂, hfield, hafter, rfl⟩ := forall₂_cons_left_iff.mp h'
  obtain ⟨i, hi, hv⟩ := any_eq_true.mp hfield.2
  have hin := Interval.bounds_of_contains hv
  have hbefore := Within.corners hbefore fun f hf => hvalid f (mem_append_left _ hf)
  have hafter := Within.corners hafter fun f hf =>
    hvalid f (mem_append_right _ (mem_cons_of_mem _ hf))
  refine ⟨i, hi, rank_le_of_fields ?_, rank_le_of_fields ?_⟩
  · exact rel_append hbefore.1 (.cons ⟨hfield.1, hin.1⟩ hafter.1)
  · exact rel_append hbefore.2 (.cons ⟨hfield.1.symm, hin.2⟩ hafter.2)

theorem highest_eq_first_iff (fields : List FieldBounds) :
    rank (fields.map fun f => (f.1, .maxKey)) = rank (fields.map first) ↔
      ∀ f ∈ fields, f.first.2 = .maxKey := by
  induction fields with
  | nil => simp
  | cons field fields ih =>
    rw [map_cons, map_cons, forall_mem_cons, ← ih]
    refine rank_cons_eq_iff.trans (and_congr ?_ Iff.rfl)
    rw [eq_comm]
    exact rank_eq_maxKey_iff

theorem highest_le_rangeOf_iff : rank ((before ++ field :: after).map fun f => (f.1, .maxKey)) ≤
        (rangeOf before field after i).1.rank ↔
      i.start = .maxKey ∧ ∀ f ∈ before ++ after, f.first.2 = .maxKey := by
  have hle := (rank_bounds (rangeOf before field after i).1).2
  have hnames : (rangeOf before field after i).1.map (fun e => (e.1, maxKey)) =
      (before ++ field :: after).map fun f => (f.1, .maxKey) := by
    simp only [rangeOf, map_append, map_cons, map_map]
    rfl
  rw [hnames] at hle
  have heq : rank ((before ++ field :: after).map fun f => (f.1, .maxKey)) =
        (rangeOf before field after i).1.rank ↔
      i.start = .maxKey ∧ ∀ f ∈ before ++ after, f.first.2 = .maxKey := by
    -- the range starts as if this were the only interval of the field
    have hfirst := highest_eq_first_iff (before ++ (field.1, ⟨field.2.name, [i]⟩) :: after)
    simp only [map_append, map_cons, forall_mem_append, forall_mem_cons] at hfirst ⊢
    exact hfirst.trans and_left_comm
  rw [← heq]
  exact ⟨fun h => le_antisymm h hle, fun h => h.le⟩

theorem rangeOf_le (hvalid : ∀ f ∈ before ++ field :: after, f.2.isValidFor 1 = true)
    (hne : ∀ f ∈ before ++ field :: after, f.2.intervals ≠ []) (hi : i ∈ field.2.intervals) :
    (rangeOf before field after i).1.rank ≤ (rangeOf before field after i).2.rank := by
  have hends : ∀ f ∈ before ++ field :: after, f.first.2.rank ≤ f.last.2.rank := by
    intro f hf
    obtain ⟨j, hj⟩ := exists_mem_of_ne_nil _ (hne f hf)
    have hends := FieldBounds.first_le_last (hvalid f hf) hj
    exact hends.1.trans ((start_le_stop (hvalid f hf) hj).trans hends.2)
  have hmap : ∀ l : List FieldBounds, (∀ f ∈ l, f ∈ before ++ field :: after) →
      FieldsLe (l.map first) (l.map last) := by
    intro l hl
    rw [FieldsLe, forall₂_map_left_iff, forall₂_map_right_iff]
    exact forall₂_same.mpr fun f hf => ⟨rfl, hends f (hl f hf)⟩
  have hfield : field ∈ before ++ field :: after := mem_append_right _ mem_cons_self
  apply rank_le_of_fields
  refine rel_append (hmap before fun f hf => mem_append_left _ hf) (.cons ⟨rfl, ?_⟩
    (hmap after fun f hf => mem_append_right _ (mem_cons_of_mem _ hf)))
  exact start_le_stop (hvalid field hfield) hi

end Corners

section Targeting
variable {fields before after : List FieldBounds} {field : FieldBounds} {chunks : List Chunk}
  {views : ChunkMapViews}

/-- Some range starts at the highest key, so that every shard has to be found before it. -/
def CoveredBeforeTop (chunks : List Chunk) (before : List FieldBounds) (field : FieldBounds)
    (after : List FieldBounds) : Prop :=
  (∀ f ∈ before ++ after, f.first.2 = .maxKey) → (∃ i ∈ field.2.intervals, i.start = .maxKey) →
    ∀ c ∈ chunks, ∃ d ∈ chunks, d.shardId = c.shardId ∧
      ∃ i ∈ field.2.intervals, i.start ≠ .maxKey ∧ d.Meets (rangeOf before field after i)

/-- The shards found hold the owner of every key within the bounds. -/
def FindsOwners (chunks : List Chunk) (fields : List FieldBounds)
    (result : Except Failure (Finset String)) : Prop :=
  ∃ found, result = .ok found ∧ ∀ k, Within fields k → ∀ c ∈ chunks,
    (⟨c.min, c.max⟩ : ChunkRange).containsKey k = true → c.shardId ∈ found

theorem exists_split_top {oil : OrderedIntervalList} (hvalid : oil.isValidFor 1 = true)
    (htop : ∃ i ∈ oil.intervals, i.start = .maxKey) :
    ∃ earlier i later, oil.intervals = earlier ++ i :: later ∧ i.start = .maxKey ∧
      ∀ j, j ∈ earlier ↔ j ∈ oil.intervals ∧ j.start ≠ .maxKey := by
  -- what follows such an interval starts at the highest value too
  have hup : Upward (fun i => maxKey.rank ≤ i.start.rank) oil.intervals :=
    (pairwise_ascend hvalid).imp_of_mem fun hi _ hle hmax => decide_eq_true
      ((of_decide_eq_true hmax).trans ((start_le_stop hvalid hi).trans hle))
  have hmax : ∀ i : Interval, maxKey.rank ≤ i.start.rank ↔ i.start = .maxKey := fun i =>
    i.start.rank_le_maxKey.ge_iff_eq.trans rank_eq_maxKey_iff
  have hsplit := take_append_drop (oil.intervals.findIdx fun i => maxKey.rank ≤ i.start.rank)
    oil.intervals
  rw [hup.take_findIdx, hup.drop_findIdx] at hsplit
  obtain ⟨j, hj, hstart⟩ := htop
  obtain ⟨i, later, heq⟩ : ∃ i later,
      oil.intervals.filter (fun i => maxKey.rank ≤ i.start.rank) = i :: later :=
    exists_cons_of_ne_nil
      (ne_nil_of_mem (mem_filter.mpr ⟨hj, decide_eq_true ((hmax j).mpr hstart)⟩))
  have hi := mem_filter.mp (heq ▸ mem_cons_self (a := i) (l := later))
  refine ⟨_, i, later, heq ▸ hsplit.symm, (hmax i).mp (of_decide_eq_true hi.2), fun j => ?_⟩
  simp [mem_filter, ← hmax]

section
variable (hvalid : ∀ f ∈ before ++ field :: after, f.2.isValidFor 1 = true)
  (hne : ∀ f ∈ before ++ field :: after, f.2.intervals ≠ [])
include hvalid hne

theorem rangeOf_startsInside {intervals : List Interval}
    (hinside : ∀ i ∈ intervals, i ∈ field.2.intervals ∧
      ¬(i.start = .maxKey ∧ ∀ f ∈ before ++ after, f.first.2 = .maxKey)) :
    ∀ range ∈ intervals.map (rangeOf before field after),
      StartsInside (rank ((before ++ field :: after).map fun f => (f.1, .minKey)))
        (rank ((before ++ field :: after).map fun f => (f.1, .maxKey))) range := by
  rw [forall_mem_map]
  intro i hi
  obtain ⟨hi, htop⟩ := hinside i hi
  constructor
  · exact rangeOf_le hvalid hne hi
  · have hlow := (rank_bounds (rangeOf before field after i).2).1
    have hnames : (rangeOf before field after i).2.map (fun e => (e.1, minKey)) =
        (before ++ field :: after).map fun f => (f.1, .minKey) := by
      simp only [rangeOf, map_append, map_cons, map_map]
      rfl
    exact hnames ▸ hlow
  · rw [← not_le, highest_le_rangeOf_iff]
    exact htop

/-- The ranges of the bounds find every owner, unless the lookup gives up at the top. -/
theorem findsOwners_iff_coveredBeforeTop (hroutes : Routes chunks views
      (rank ((before ++ field :: after).map fun f => (f.1, .minKey)))
      (rank ((before ++ field :: after).map fun f => (f.1, .maxKey))))
    (hchunks : chunks ≠ []) :
    FindsOwners chunks (before ++ field :: after) (getShardIdsForRanges views
        (field.2.intervals.map (rangeOf before field after)) ∅) ↔
      CoveredBeforeTop chunks before field after := by
  have hnone : (∅ : Finset String) ⊆ owners chunks := Finset.empty_subset _
  have hnotAll : (∅ : Finset String) ≠ owners chunks := by
    obtain ⟨c, hc⟩ := exists_mem_of_ne_nil _ hchunks
    exact (Finset.ne_empty_of_mem (mem_owners hc)).symm
  by_cases htop : (∀ f ∈ before ++ after, f.first.2 = .maxKey) ∧
      ∃ i ∈ field.2.intervals, i.start = .maxKey
  · have hfield : field ∈ before ++ field :: after := mem_append_right _ mem_cons_self
    obtain ⟨earlier, i, later, heq, hi, hmem⟩ := exists_split_top (hvalid field hfield) htop.2
    have hinside := rangeOf_startsInside hvalid hne fun j hj =>
      ⟨((hmem j).mp hj).1, fun h => ((hmem j).mp hj).2 h.1⟩
    obtain ⟨found, hfound, hresult⟩ := getShardIdsForRanges_append hroutes hnone hnotAll hinside
      ((i :: later).map (rangeOf before field after))
    rw [heq, map_append, hresult]
    by_cases hall : found = owners chunks
    · rw [if_pos hall]
      refine iff_of_true ⟨found, rfl, fun k _ c hc _ => hall ▸ mem_owners hc⟩ fun _ _ c hc => ?_
      rcases (hfound c.shardId).mp (hall ▸ mem_owners hc) with
        hid | ⟨d, hd, hid, range, hrange, hmeets⟩
      · exact absurd hid (Finset.notMem_empty _)
      · obtain ⟨j, hj, rfl⟩ := mem_map.mp hrange
        have hj := (hmem j).mp hj
        exact ⟨d, hd, hid, j, hj.1, hj.2, hmeets⟩
    · rw [if_neg hall, map_cons,
        getShardIdsForRanges_beyond hroutes (highest_le_rangeOf_iff.mpr ⟨hi, htop.1⟩)]
      refine iff_of_false (by rintro ⟨_, ⟨⟩, -⟩) fun hcovered => hall ?_
      apply (subset_owners hnone hfound).antisymm
      intro id hid
      obtain ⟨c, hc, rfl⟩ := mem_map.mp (mem_toFinset.mp hid)
      obtain ⟨d, hd, hid, j, hj, hjne, hmeets⟩ := hcovered htop.1 htop.2 c hc
      exact (hfound _).mpr
        (Or.inr ⟨d, hd, hid, _, mem_map_of_mem ((hmem j).mpr ⟨hj, hjne⟩), hmeets⟩)
  · have hinside := rangeOf_startsInside hvalid hne fun j hj =>
      ⟨hj, fun h => htop ⟨h.2, j, hj, h.1⟩⟩
    obtain ⟨found, hmem, hfound⟩ := getShardIdsForRanges_append hroutes hnone hnotAll hinside []
    rw [append_nil, getShardIdsForRanges, ite_self] at hfound
    constructor
    · intro _ hfirst hstart
      exact absurd ⟨hfirst, hstart⟩ htop
    · intro _
      refine ⟨found, hfound, fun k hk c hc hin => (hmem _).mpr (Or.inr ?_)⟩
      obtain ⟨hlo, hhi⟩ := containsKey_iff.mp hin
      obtain ⟨i, hi, hstart, hstop⟩ := hk.exists_range hvalid
      exact ⟨c, hc, rfl, _, mem_map_of_mem hi, hstart.trans_lt hhi, hlo.trans hstop⟩

end

theorem map_names {α β : Type*} {l : List (CString × α)} {r : List (CString × β)}
    (h : l.map Prod.fst = r.map Prod.fst) (v : BSONValue) :
    (l.map fun e => (e.1, v)) = r.map fun e => (e.1, v) := by
  simpa only [map_map, Function.comp_def] using congrArg (map fun name => (name, v)) h

/-- The intervals of each field, with the name the pattern has for it. -/
def fieldsOf (keyPattern : BSONObj) (bounds : IndexBounds) : List FieldBounds :=
  (keyPattern.map Prod.fst).zip bounds.fields

variable {keyPattern : BSONObj} {bounds : IndexBounds}

section
variable (hlength : bounds.fields.length = keyPattern.length)
include hlength

theorem fieldsOf_names (v : BSONValue) :
    (fieldsOf keyPattern bounds).map (fun f => (f.1, v)) = keyPattern.map fun e => (e.1, v) :=
  map_names (map_fst_zip (by simp [hlength])) v

theorem fieldsOf_oils : (fieldsOf keyPattern bounds).map Prod.snd = bounds.fields :=
  map_snd_zip (by simp [hlength])

theorem mem_fields_iff {P : OrderedIntervalList → Prop} :
    (∀ oil ∈ bounds.fields, P oil) ↔ ∀ f ∈ fieldsOf keyPattern bounds, P f.2 := by
  rw [← fieldsOf_oils hlength, forall_mem_map]

theorem not_within_of_empty (hempty : ∃ oil ∈ bounds.fields, oil.intervals = []) (k : BSONObj) :
    ¬Within (fieldsOf keyPattern bounds) k := by
  intro hk
  have hall : ∀ f ∈ fieldsOf keyPattern bounds, f.2.intervals ≠ [] := by
    generalize fieldsOf keyPattern bounds = fields at hk
    induction hk with
    | nil => simp
    | cons hfield _ ih =>
      refine forall_mem_cons.mpr ⟨fun hnil => ?_, ih⟩
      rw [OrderedIntervalList.contains, hnil] at hfield
      exact absurd hfield.2 (by simp)
  obtain ⟨oil, hoil, hnil⟩ := hempty
  exact (mem_fields_iff hlength (P := fun oil => oil.intervals ≠ [])).mpr hall oil hoil hnil

end

/-- The shards for the bounds of a query hold the owner of every key within them if and only if
not too many intervals are combined, and the shards of the ranges before one that starts at the
highest key are all there are. -/
theorem getShardIdsForBounds_finds_owners_iff {text : Rendering} {epoch : OID}
    (hpattern : keyPattern ≠ []) (hlength : bounds.fields.length = keyPattern.length)
    (hvalid : ∀ oil ∈ bounds.fields, oil.isValidFor 1 = true)
    (hchunks : PartitionsKeySpace keyPattern chunks)
    (hviews : constructChunkMapViews text epoch chunks = .ok views) :
    FindsOwners chunks (fieldsOf keyPattern bounds) (getShardIdsForBounds views keyPattern bounds) ↔
      (∃ oil ∈ bounds.fields, oil.intervals = []) ∨
      ∃ before field after, RangeField (fieldsOf keyPattern bounds) before field after ∧
        field.2.intervals.length ≤ kMaxFlattenedInCombinations ∧
        CoveredBeforeTop chunks before field after := by
  by_cases hempty : ∃ oil ∈ bounds.fields, oil.intervals = []
  · have hflatten : flattenBounds keyPattern bounds = .ok [] := by
      have hany : (bounds.fields.any fun oil => oil.intervals.length = 0) = true := by
        simpa using hempty
      rw [flattenBounds, if_neg (not_not.mpr hlength), if_pos hany]
    have hresult : getShardIdsForBounds views keyPattern bounds = .ok ∅ := by
      rw [getShardIdsForBounds, hflatten]
      rfl
    exact iff_of_true
      ⟨∅, hresult, fun k hk => absurd hk (not_within_of_empty hlength hempty k)⟩ (Or.inl hempty)
  · have hflatten : flattenBounds keyPattern bounds =
        flattenFields true [([], [])] (fieldsOf keyPattern bounds) := by
      have hany : ¬(bounds.fields.any fun oil => oil.intervals.length = 0) = true := by
        simpa using hempty
      rw [flattenBounds, if_neg (not_not.mpr hlength), if_neg hany]
      rfl
    have hroutes := routes_of_construct hviews hchunks.consecutive hchunks.lt
    have hsome : chunks ≠ [] := by
      rintro rfl
      exact absurd hviews (by simp [constructChunkMapViews])
    rw [← fieldsOf_names hlength, ← fieldsOf_names hlength] at hroutes
    rw [mem_fields_iff hlength] at hvalid
    have hnone := hempty
    push Not at hempty
    rw [mem_fields_iff hlength] at hempty
    -- the ranges for one choice of the field that makes them
    have hsplit : ∀ before field after, RangeField (fieldsOf keyPattern bounds) before field after →
        (FindsOwners chunks (fieldsOf keyPattern bounds)
            (getShardIdsForBounds views keyPattern bounds) ↔
          field.2.intervals.length ≤ kMaxFlattenedInCombinations ∧
            CoveredBeforeTop chunks before field after) := by
      intro before field after h
      have heq := h.fields_eq
      rw [heq] at hroutes hvalid hempty
      have hcore := findsOwners_iff_coveredBeforeTop hvalid hempty hroutes hsome
      rw [← heq] at hcore
      have hflat := flattenFields_eq h (field.2.intervals.map (rangeOf before field after))
      constructor
      · rintro ⟨found, hfound, hall⟩
        rw [getShardIdsForBounds, hflatten] at hfound
        obtain ⟨ranges, hranges, hfound⟩ := bind_eq_ok.mp hfound
        obtain ⟨hfew, rfl⟩ := (flattenFields_eq h ranges).mp hranges
        exact ⟨hfew, hcore.mp ⟨found, hfound, hall⟩⟩
      · rintro ⟨hfew, hcovered⟩
        obtain ⟨found, hfound, hall⟩ := hcore.mpr hcovered
        refine ⟨found, ?_, hall⟩
        rw [getShardIdsForBounds, hflatten, hflat.mpr ⟨hfew, rfl⟩]
        exact hfound
    rw [or_iff_right hnone]
    constructor
    · intro hfinds
      have hfields : fieldsOf keyPattern bounds ≠ [] := by
        intro hnil
        have hnames := fieldsOf_names hlength .minKey
        rw [hnil, map_nil, eq_comm, map_eq_nil_iff] at hnames
        exact hpattern hnames
      obtain ⟨before, field, after, h⟩ := exists_rangeField hfields
      exact ⟨before, field, after, h, (hsplit before field after h).mp hfinds⟩
    · rintro ⟨before, field, after, h, hcondition⟩
      exact (hsplit before field after h).mpr hcondition

def chunksAtTen : List Chunk :=
  let key (v : BSONValue) : BSONObj := [(⟨[0x61], CString.nul_notMem_a⟩, v)]
  [⟨key .minKey, key (.number (.numberInt 10)), "A", .ofParts 1 0 ⟨replicate 12 7, OID.length_sevens⟩⟩,
    ⟨key (.number (.numberInt 10)), key .maxKey, "B", .ofParts 1 1 ⟨replicate 12 7, OID.length_sevens⟩⟩]

def viewsAtTen : ChunkMapViews :=
  ⟨chunksAtTen.map fun c => ⟨⟨c.min, c.max⟩, c.shardId⟩,
    chunksAtTen.map fun c => (c.shardId, c.lastmod)⟩

def noText : Rendering := ⟨fun _ => "", fun _ => "", fun _ => "", fun _ => "", fun _ => ""⟩

def patternA : BSONObj := [(⟨[0x61], CString.nul_notMem_a⟩, .number (.numberInt 1))]

def boundsA (intervals : List Interval) : IndexBounds := ⟨[⟨⟨[0x61], CString.nul_notMem_a⟩, intervals⟩]⟩

theorem partitions_chunksAtTen : PartitionsKeySpace patternA chunksAtTen := by
  have hlow : (chunksAtTen.head (by decide)).lo < (chunksAtTen.head (by decide)).hi :=
    woCompareNested_lt_iff.mp (by decide +kernel)
  have hhigh : (chunksAtTen.getLast (by decide)).lo < (chunksAtTen.getLast (by decide)).hi :=
    woCompareNested_lt_iff.mp (by decide +kernel)
  constructor
  · exact .cons hlow.le (.cons hhigh.le (.nil _))
  · exact forall_mem_cons.mpr ⟨hlow, forall_mem_singleton.mpr hhigh⟩

theorem construct_chunksAtTen :
    constructChunkMapViews noText ⟨replicate 12 7, rfl⟩ chunksAtTen = .ok viewsAtTen := by
  rfl

/-- Both shards are found for the values from five to twenty. -/
theorem getShardIdsForBounds_finds_owners_fiveToTwenty :
    FindsOwners chunksAtTen (fieldsOf patternA (boundsA
        [⟨.number (.numberInt 5), true, .number (.numberInt 20), false⟩]))
      (getShardIdsForBounds viewsAtTen patternA (boundsA
        [⟨.number (.numberInt 5), true, .number (.numberInt 20), false⟩])) := by
  refine (getShardIdsForBounds_finds_owners_iff (by simp [patternA]) rfl ?_ partitions_chunksAtTen
    construct_chunksAtTen).mpr (Or.inr ⟨[], _, [], ⟨rfl, by simp, fun _ => rfl⟩, by decide, ?_⟩)
  · decide +kernel
  · intro _ htop
    simp at htop

/-- With five and the highest value as points, the lookup of the second point stops the search for
the owner of the first. -/
theorem lookup_stops_at_highest_key : PartitionsKeySpace patternA chunksAtTen ∧
    constructChunkMapViews noText ⟨replicate 12 7, rfl⟩ chunksAtTen = .ok viewsAtTen ∧
    (∀ oil ∈ (boundsA [⟨.number (.numberInt 5), true, .number (.numberInt 5), true⟩,
      ⟨.maxKey, true, .maxKey, true⟩]).fields, oil.isValidFor 1 = true) ∧
    Within (fieldsOf patternA (boundsA
      [⟨.number (.numberInt 5), true, .number (.numberInt 5), true⟩,
        ⟨.maxKey, true, .maxKey, true⟩])) [(⟨[0x61], by decide⟩, .number (.numberInt 5))] ∧
    (∃ c ∈ chunksAtTen, (⟨c.min, c.max⟩ : ChunkRange).containsKey
      [(⟨[0x61], by decide⟩, .number (.numberInt 5))] = true) ∧
    getShardIdsForBounds viewsAtTen patternA
      (boundsA [⟨.number (.numberInt 5), true, .number (.numberInt 5), true⟩,
        ⟨.maxKey, true, .maxKey, true⟩]) = .error .invariant := by
  refine ⟨partitions_chunksAtTen, construct_chunksAtTen, by decide +kernel, ?_, ?_, ?_⟩
  · exact .cons ⟨rfl, by decide +kernel⟩ .nil
  · exact ⟨_, mem_cons_self, by decide +kernel⟩
  · decide +kernel

end Targeting
end MongoServer
