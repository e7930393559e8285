import MongoServer.Sharding.CollectionMetadata

/-!
The ranges of keys that belong to no chunk and are not pending are exactly the holes between the
ranges of both maps, and the search enumerates them. A key belongs to the shard if a chunk
contains it, although the question is answered from the joined ranges.
-/
namespace MongoServer
open Ranges BSONObj List

section Coalescing

def rangeEntry (r : BSONObj × BSONObj) : BSONObj × CachedChunkInfo :=
  (r.1, ⟨r.2, ChunkVersion.IGNORED⟩)

namespace RangeMap

variable {ranges : RangeMap} {rs : List (BSONObj × BSONObj)}

theorem emplace_last {key : BSONObj} {info : CachedChunkInfo}
    (h : ∀ e ∈ ranges.entries, woCompareNested e.1 key < 0) :
    (ranges.emplace key info).entries = ranges.entries ++ [(key, info)] := by
  have hnone : ranges.find key = none := by
    rw [find, List.find?_eq_none]
    intro e he
    simp [(h e he).ne]
  have hbefore : ranges.entries.filter (fun e => woCompareNested e.1 key < 0) = ranges.entries :=
    filter_eq_self.mpr fun e he => decide_eq_true (h e he)
  have hafter : ranges.entries.filter (fun e => 0 < woCompareNested e.1 key) = [] :=
    filter_eq_nil_iff.mpr fun e he => by simpa using (h e he).le
  simp [emplace, hnone, hbefore, hafter]

theorem entries_foldl_emplace (hsorted : rs.Pairwise fun r s => woCompareNested r.1 s.1 < 0)
    (h : ∀ e ∈ ranges.entries, ∀ r ∈ rs, woCompareNested e.1 r.1 < 0) :
    (rs.foldl (fun m r => m.emplace r.1 ⟨r.2, ChunkVersion.IGNORED⟩) ranges).entries =
      ranges.entries ++ rs.map rangeEntry := by
  induction rs generalizing ranges with
  | nil => simp
  | cons r rs ih =>
    obtain ⟨hr, hrs⟩ := pairwise_cons.mp hsorted
    have hlast : (ranges.emplace r.1 ⟨r.2, ChunkVersion.IGNORED⟩).entries =
        ranges.entries ++ [rangeEntry r] := emplace_last fun e he => h e he r mem_cons_self
    rw [foldl_cons, ih hrs, hlast, map_cons, append_assoc]
    · rfl
    · rw [hlast]
      exact forall_mem_append.mpr ⟨fun e he s hs => h e he s (mem_cons_of_mem _ hs),
        forall_mem_singleton.mpr hr⟩

theorem entries_ofRanges (hsorted : rs.Pairwise fun r s => woCompareNested r.1 s.1 < 0) :
    (ofRanges rs).entries = rs.map rangeEntry :=
  entries_foldl_emplace hsorted (by simp [empty])

theorem Disjoint.containsKey_iff (h : ranges.Disjoint) (key : BSONObj) :
    ranges.containsKey key = true ↔ Held rangeLo rangeHi ranges.entries key.rank := by
  have hlookup : ∀ e : BSONObj × CachedChunkInfo, rangeContains e.1 e.2.maxKey key = true ↔
      rangeLo e ≤ key.rank ∧ key.rank < rangeHi e := fun e => rangeContains_iff
  constructor
  · intro hcontains
    obtain ⟨e, he, hmem⟩ := (Option.any_eq_true _ _).mp hcontains
    exact ⟨e, mem_of_getElem? he, (hlookup e).mp hmem⟩
  · intro hheld
    rw [h.held_iff_last, ← h.before_upperBound, Option.any_eq_true] at hheld
    obtain ⟨e, he, hlt⟩ := hheld
    have hlast := he
    rw [h.before_upperBound] at hlast
    obtain ⟨-, hle, -⟩ := h.last_spec hlast
    unfold before at he
    split_ifs at he with hzero
    simp only [containsKey, if_pos hzero, he, Option.any_some]
    exact (hlookup e).mpr ⟨hle, of_decide_eq_true hlt⟩

end RangeMap

namespace CollectionMetadata

/-- Joining adjacent ranges keeps them apart and changes nothing of what they hold. -/
theorem coalesce_spec {min max : BSONObj} {chunks : List (BSONObj × CachedChunkInfo)}
    (hmin : min ≠ []) (hkeys : ∀ e ∈ chunks, e.1 ≠ [])
    (h : Ranges.Apart rangeLo rangeHi (rangeEntry (min, max) :: chunks)) :
    Ranges.Apart rangeLo rangeHi ((coalesce min max chunks).map rangeEntry) ∧
      (∀ e ∈ (coalesce min max chunks).map rangeEntry, min.rank ≤ rangeLo e) ∧
      ∀ k, Held rangeLo rangeHi ((coalesce min max chunks).map rangeEntry) k ↔
        Held rangeLo rangeHi (rangeEntry (min, max) :: chunks) k := by
  induction chunks generalizing min max with
  | nil => exact ⟨h, by simp [coalesce, rangeEntry, rangeLo], fun k => Iff.rfl⟩
  | cons e chunks ih =>
    obtain ⟨currMin, info⟩ := e
    obtain ⟨hcurr, hrest⟩ := forall_mem_cons.mp hkeys
    have hfirst := h.nonempty _ mem_cons_self
    have hsecond := h.nonempty _ (mem_cons_of_mem _ mem_cons_self)
    obtain ⟨hbefore, hordered⟩ := pairwise_cons.mp h.ordered
    have hnext : max.rank ≤ currMin.rank := hbefore _ mem_cons_self
    rw [coalesce, if_neg (by simpa using hmin)]
    split_ifs with hadjacent
    · -- the chunk extends the current range
      rw [woCompareNested_eq_iff] at hadjacent
      have hjoined : Ranges.Apart rangeLo rangeHi (rangeEntry (min, info.maxKey) :: chunks) := by
        refine ⟨forall_mem_cons.mpr ⟨?_, h.tail.tail.nonempty⟩,
          pairwise_cons.mpr ⟨?_, h.tail.tail.ordered⟩⟩
        · exact hfirst.trans (hadjacent.trans_lt hsecond)
        · exact fun d hd => rel_of_pairwise_cons hordered hd
      obtain ⟨hapart, hlower, hheld⟩ := ih hmin hrest hjoined
      refine ⟨hapart, hlower, fun k => ?_⟩
      rw [hheld]
      simp only [Held, mem_cons, exists_eq_or_imp]
      have hsplit : (min.rank ≤ k ∧ k < info.maxKey.rank) ↔
          (min.rank ≤ k ∧ k < max.rank) ∨ currMin.rank ≤ k ∧ k < info.maxKey.rank := by
        have hfirst : min.rank < max.rank := hfirst
        have hsecond : currMin.rank < info.maxKey.rank := hsecond
        rw [hadjacent] at hfirst ⊢
        constructor
        · rintro ⟨hle, hlt⟩
          rcases lt_or_ge k currMin.rank with hk | hk
          · exact .inl ⟨hle, hk⟩
          · exact .inr ⟨hk, hlt⟩
        · rintro (⟨hle, hlt⟩ | ⟨hle, hlt⟩)
          · exact ⟨hle, hlt.trans hsecond⟩
          · exact ⟨hfirst.le.trans hle, hlt⟩
      rw [← or_assoc]
      exact or_congr_left hsplit
    · rw [woCompareNested_eq_iff] at hadjacent
      have hgap : max.rank < currMin.rank := lt_of_le_of_ne hnext hadjacent
      have hcurrent : Ranges.Apart rangeLo rangeHi (rangeEntry (currMin, info.maxKey) :: chunks) :=
        ⟨forall_mem_cons.mpr ⟨hsecond, h.tail.tail.nonempty⟩,
          pairwise_cons.mpr ⟨fun d hd => rel_of_pairwise_cons hordered hd, h.tail.tail.ordered⟩⟩
      obtain ⟨hapart, hlower, hheld⟩ := ih hcurr hrest hcurrent
      rw [map_cons]
      refine ⟨⟨forall_mem_cons.mpr ⟨hfirst, hapart.nonempty⟩,
        pairwise_cons.mpr ⟨fun d hd => hnext.trans (hlower d hd), hapart.ordered⟩⟩,
        forall_mem_cons.mpr ⟨le_refl _, fun d hd => ?_⟩, fun k => ?_⟩
      · have hle : min.rank ≤ max.rank := hfirst.le
        exact hle.trans (hnext.trans (hlower d hd))
      · have hrestHeld := hheld k
        simp only [Held, mem_cons, exists_eq_or_imp] at hrestHeld ⊢
        rw [hrestHeld]
        rfl

end CollectionMetadata
end Coalescing

namespace CollectionMetadata

/-- Made by the constructor, and given its pending ranges afterwards. -/
def IsBuilt (metadata : CollectionMetadata) : Prop :=
  ∃ keyPattern collectionVersion shardVersion shardChunksMap built,
    new keyPattern collectionVersion shardVersion shardChunksMap = some built ∧
      metadata = { built with pendingMap := metadata.pendingMap }

variable {metadata : CollectionMetadata} {lookupKey : BSONObj}

theorem IsBuilt.rangesMap_eq (h : metadata.IsBuilt) :
    metadata.rangesMap = if metadata.chunksMap.isEmpty then .empty
      else .ofRanges (coalesce [] [] metadata.chunksMap.entries) := by
  obtain ⟨keyPattern, collectionVersion, shardVersion, shardChunksMap, built, hnew, heq⟩ := h
  have hbuilt : built.rangesMap = if built.chunksMap.isEmpty then .empty
      else .ofRanges (coalesce [] [] built.chunksMap.entries) := by
    unfold new at hnew
    dsimp only at hnew
    split_ifs at hnew with _ hempty
    all_goals
      cases hnew
      simp [hempty]
  rw [heq]
  exact hbuilt

theorem IsBuilt.rangesMap_spec (h : metadata.IsBuilt) (hchunks : metadata.chunksMap.Disjoint)
    (hkeys : ∀ e ∈ metadata.chunksMap.entries, e.1 ≠ []) :
    metadata.rangesMap.Disjoint ∧ ∀ k, Held rangeLo rangeHi metadata.rangesMap.entries k ↔
      Held rangeLo rangeHi metadata.chunksMap.entries k := by
  rw [h.rangesMap_eq]
  unfold RangeMap.Disjoint at hchunks ⊢
  rw [RangeMap.isEmpty]
  cases hentries : metadata.chunksMap.entries with
  | nil => exact ⟨⟨by simp [RangeMap.empty], List.Pairwise.nil⟩, fun k => Iff.rfl⟩
  | cons e rest =>
    obtain ⟨currMin, info⟩ := e
    rw [hentries] at hchunks hkeys
    obtain ⟨hcurr, hrest⟩ := forall_mem_cons.mp hkeys
    have hne : rangeLo (currMin, info) < rangeHi (currMin, info) :=
      hchunks.nonempty _ mem_cons_self
    have hfirst : Ranges.Apart rangeLo rangeHi (rangeEntry (currMin, info.maxKey) :: rest) :=
      ⟨forall_mem_cons.mpr ⟨hne, hchunks.tail.nonempty⟩,
        pairwise_cons.mpr ⟨fun d hd => rel_of_pairwise_cons hchunks.ordered hd,
          hchunks.tail.ordered⟩⟩
    obtain ⟨hapart, -, hheld⟩ := coalesce_spec hcurr hrest hfirst
    have hstart : coalesce [] [] ((currMin, info) :: rest) = coalesce currMin info.maxKey rest := by
      simp [coalesce]
    have hsorted : (coalesce currMin info.maxKey rest).Pairwise
        fun r s => woCompareNested r.1 s.1 < 0 :=
      (pairwise_map.mp hapart.lo_lt).imp fun hlt => woCompareNested_lt_iff.mpr hlt
    simp only [isEmpty_cons, Bool.false_eq_true, ↓reduceIte, hstart,
      RangeMap.entries_ofRanges hsorted]
    refine ⟨hapart, fun k => (hheld k).trans ?_⟩
    simp only [Held, mem_cons, exists_eq_or_imp]
    rfl

theorem IsBuilt.keyBelongsToMe_iff (h : metadata.IsBuilt) (hchunks : metadata.chunksMap.Disjoint)
    (hkeys : ∀ e ∈ metadata.chunksMap.entries, e.1 ≠ []) (key : BSONObj) :
    metadata.keyBelongsToMe key = true ↔
      ∃ e ∈ metadata.chunksMap.entries, rangeContains e.1 e.2.maxKey key = true := by
  obtain ⟨hdisjoint, hheld⟩ := h.rangesMap_spec hchunks hkeys
  have hlookup : metadata.keyBelongsToMe key = metadata.rangesMap.containsKey key := by
    unfold keyBelongsToMe
    split_ifs with hempty
    · have hnil : metadata.rangesMap.entries = [] := isEmpty_iff.mp hempty
      simp [RangeMap.containsKey, hnil]
    · rfl
  rw [hlookup, hdisjoint.containsKey_iff, hheld]
  exact exists_congr fun e => and_congr_right fun _ => rangeContains_iff.symm

section Search

/-- The key is in a chunk or in a pending range. -/
def Holds (metadata : CollectionMetadata) (k : Rank) : Prop :=
  Held rangeLo rangeHi (metadata.chunksMap.entries ++ metadata.pendingMap.entries) k

/-- A largest range of keys between the lowest and the highest key of which no key is in a chunk
or in a pending range. -/
def IsOrphanRange (metadata : CollectionMetadata) (minKey maxKey : BSONObj) : Prop :=
  IsHole (Set.range rank) metadata.Holds metadata.getMinKey.rank metadata.getMaxKey.rank
    minKey.rank maxKey.rank

variable {ranges : RangeMap} {e : BSONObj × CachedChunkInfo}

theorem overlapEnd_eq_none (h : ranges.Disjoint)
    (hnone : overlapEnd ranges (ranges.upperBound lookupKey) lookupKey = none) :
    ¬Held rangeLo rangeHi ranges.entries lookupKey.rank := by
  rw [h.held_iff_last, ← h.before_upperBound, Option.any_eq_true]
  rintro ⟨e, he, hlt⟩
  rw [overlapEnd, he, Option.filter_some, if_pos] at hnone
  · cases hnone
  · rw [decide_eq_true_iff, woCompareNested_pos_iff, woCompareNested_lt_iff]
    exact of_decide_eq_true hlt

theorem overlapEnd_eq_some (h : ranges.Disjoint)
    (hsome : overlapEnd ranges (ranges.upperBound lookupKey) lookupKey = some e) :
    e ∈ ranges.entries ∧ rangeLo e ≤ lookupKey.rank ∧ lookupKey.rank < rangeHi e := by
  obtain ⟨hbefore, hpos⟩ := Option.filter_eq_some_iff.mp hsome
  rw [decide_eq_true_iff, woCompareNested_pos_iff, woCompareNested_lt_iff] at hpos
  rw [h.before_upperBound] at hbefore
  obtain ⟨hmem, hle, -⟩ := h.last_spec hbefore
  exact ⟨hmem, hle, hpos⟩

theorem raiseMin_spec {minKey : BSONObj} (h : ranges.Disjoint)
    (hfree : ¬Held rangeLo rangeHi ranges.entries lookupKey.rank)
    (hmin : minKey.rank ≤ lookupKey.rank) :
    let x := raiseMin ranges (ranges.upperBound lookupKey) minKey
    minKey.rank ≤ x.rank ∧ x.rank ≤ lookupKey.rank ∧
      (∀ e ∈ ranges.entries, rangeHi e ≤ lookupKey.rank → rangeHi e ≤ x.rank) ∧
      (x = minKey ∨ ∃ e ∈ ranges.entries, rangeHi e = x.rank) := by
  dsimp only
  unfold raiseMin
  rw [h.before_upperBound]
  cases hlast : (ranges.entries.filter fun e => !(lookupKey.rank < rangeLo e : Bool)).getLast? with
  | none =>
    refine ⟨le_refl _, hmin, fun e he hend => ?_, .inl rfl⟩
    have hstart := (last_eq_none hlast e he).trans (h.nonempty e he)
    exact absurd hend (not_le.mpr hstart)
  | some e =>
    obtain ⟨he, hle, hends⟩ := h.last_spec hlast
    have hend : rangeHi e ≤ lookupKey.rank := not_lt.mp fun hlt => hfree ⟨e, he, hle, hlt⟩
    have hall : ∀ d ∈ ranges.entries, rangeHi d ≤ lookupKey.rank → rangeHi d ≤ rangeHi e :=
      fun d hd hdend => hends d hd ((h.nonempty d hd).le.trans hdend)
    dsimp only
    split_ifs with hpos
    · rw [woCompareNested_pos_iff, woCompareNested_lt_iff] at hpos
      exact ⟨hpos.le, hend, hall, .inr ⟨e, he, rfl⟩⟩
    · rw [woCompareNested_pos_iff, woCompareNested_lt_iff, not_lt] at hpos
      exact ⟨le_refl _, hmin, fun d hd hdend => (hall d hd hdend).trans hpos, .inl rfl⟩

theorem lowerMax_spec {maxKey : BSONObj} (h : ranges.Disjoint)
    (hmax : lookupKey.rank < maxKey.rank) :
    let y := lowerMax ranges (ranges.upperBound lookupKey) maxKey
    lookupKey.rank < y.rank ∧ y.rank ≤ maxKey.rank ∧
      (∀ e ∈ ranges.entries, lookupKey.rank < rangeLo e → y.rank ≤ rangeLo e) ∧
      (y = maxKey ∨ ∃ e ∈ ranges.entries, rangeLo e = y.rank) := by
  dsimp only
  unfold lowerMax
  rw [h.getElem?_upperBound]
  cases hfirst : (ranges.entries.filter fun e => (lookupKey.rank < rangeLo e : Bool)).head? with
  | none =>
    refine ⟨hmax, le_refl _, fun e he hstart => ?_, .inl rfl⟩
    exact absurd (first_eq_none hfirst e he) (not_le.mpr hstart)
  | some e =>
    obtain ⟨he, hlt, hstarts⟩ := h.first_spec hfirst
    dsimp only
    split_ifs with hneg
    · rw [woCompareNested_lt_iff] at hneg
      exact ⟨hlt, hneg.le, hstarts, .inr ⟨e, he, rfl⟩⟩
    · rw [woCompareNested_lt_iff, not_lt] at hneg
      exact ⟨hmax, le_refl _, fun d hd hstart => hneg.trans (hstarts d hd hstart), .inl rfl⟩

/-- Where orphan ranges may end: at the highest key, or where a range starts. -/
def rangeStarts (metadata : CollectionMetadata) : List Rank :=
  metadata.getMaxKey.rank :: (metadata.chunksMap.entries ++ metadata.pendingMap.entries).map rangeLo

/-- What the search from a key has to return. -/
def IsNextOrphan (metadata : CollectionMetadata) (lookupKey : BSONObj) : Option KeyRange → Prop :=
  IsNextHole (Set.range rank) metadata.Holds metadata.getMinKey.rank metadata.getMaxKey.rank
    lookupKey.rank (fun r => r.minKey.rank) fun r => r.maxKey.rank

theorem closestEnd {x x₁ x₂ : BSONObj} {f : BSONObj × CachedChunkInfo → Rank}
    {l₁ l₂ : List (BSONObj × CachedChunkInfo)} (h₁ : x₁ = x ∨ ∃ e ∈ l₁, f e = x₁.rank)
    (h₂ : x₂ = x₁ ∨ ∃ e ∈ l₂, f e = x₂.rank) :
    x₂.rank = x.rank ∨ ∃ e ∈ l₁ ++ l₂, f e = x₂.rank := by
  rcases h₂ with rfl | ⟨e, he, heq⟩
  · rcases h₁ with rfl | ⟨e, he, heq⟩
    · exact .inl rfl
    · exact .inr ⟨e, mem_append_left _ he, heq⟩
  · exact .inr ⟨e, mem_append_right _ he, heq⟩

theorem closestBounds_spec (hchunks : metadata.chunksMap.Disjoint)
    (hpending : metadata.pendingMap.Disjoint) (hmin : metadata.getMinKey.rank ≤ lookupKey.rank)
    (hmax : lookupKey.rank < metadata.getMaxKey.rank)
    (hchunk : ¬Held rangeLo rangeHi metadata.chunksMap.entries lookupKey.rank)
    (hpend : ¬Held rangeLo rangeHi metadata.pendingMap.entries lookupKey.rank) :
    metadata.IsNextOrphan lookupKey (some (metadata.closestBounds lookupKey)) ∧
      (metadata.closestBounds lookupKey).maxKey.rank ∈ metadata.rangeStarts := by
  obtain ⟨hx₁, hx₁k, hx₁all, hx₁end⟩ := raiseMin_spec hchunks hchunk hmin
  obtain ⟨hx₂, hx₂k, hx₂all, hx₂end⟩ := raiseMin_spec hpending hpend hx₁k
  obtain ⟨hky₁, hy₁, hy₁all, hy₁end⟩ := lowerMax_spec hchunks hmax
  obtain ⟨hky₂, hy₂, hy₂all, hy₂end⟩ := lowerMax_spec hpending hky₁
  have hnonempty : ∀ e ∈ metadata.chunksMap.entries ++ metadata.pendingMap.entries,
      rangeLo e < rangeHi e := fun e he =>
    (mem_append.mp he).elim (hchunks.nonempty e) (hpending.nonempty e)
  have hfree : ¬metadata.Holds lookupKey.rank := fun h =>
    ((held_append _ _ _).mp h).elim hchunk hpend
  have hends := closestEnd hy₁end hy₂end
  have hole : metadata.IsOrphanRange (metadata.closestBounds lookupKey).minKey
      (metadata.closestBounds lookupKey).maxKey := by
    refine isHole_of_closest hnonempty (fun e _ => ⟨⟨e.1, rfl⟩, ⟨e.2.maxKey, rfl⟩⟩) hfree
      ⟨hx₁.trans hx₂, hx₂k⟩ ?_ (closestEnd hx₁end hx₂end) ⟨hky₂, hy₂.trans hy₁⟩ ?_ hends
    · exact forall_mem_append.mpr ⟨fun e he hend => (hx₁all e he hend).trans hx₂, hx₂all⟩
    · exact forall_mem_append.mpr ⟨fun e he hstart => hy₂.trans (hy₁all e he hstart), hy₂all⟩
  refine ⟨⟨⟨_, rfl⟩, ⟨_, rfl⟩, hole, hky₂, fun x hx y hy hole' hlt => ?_⟩,
    mem_cons.mpr (hends.imp_right mem_map.mpr)⟩
  rcases hole.eq_or_apart hole' ⟨_, rfl⟩ ⟨_, rfl⟩ hx hy with ⟨-, heq⟩ | hle | hle
  · exact heq.le
  · exact hle.trans hole'.lt.le
  · exact absurd (hlt.trans_le hle) (not_lt.mpr hx₂k)

/-- Passing over a range that the key is in passes over no orphan range. -/
theorem isNextHole_of_overlap {o : Option KeyRange}
    (he : e ∈ metadata.chunksMap.entries ++ metadata.pendingMap.entries)
    (hkey : rangeLo e ≤ lookupKey.rank ∧ lookupKey.rank < rangeHi e)
    (h : metadata.IsNextOrphan e.2.maxKey o) : metadata.IsNextOrphan lookupKey o := by
  refine IsNextHole.congr h
    (fun x hx y _ hole => ⟨fun hlt => ?_, fun hlt => hkey.2.trans hlt⟩) hkey.2.le
  exact hole.lt_of_held hx ⟨lookupKey, rfl⟩ he hkey hlt

theorem getNextOrphanRange_eq (lookupKey : BSONObj) : metadata.getNextOrphanRange lookupKey =
      if woCompareNested lookupKey metadata.getMaxKey < 0 then
        match overlapEnd metadata.chunksMap (metadata.chunksMap.upperBound lookupKey) lookupKey with
        | some e => metadata.getNextOrphanRange e.2.maxKey
        | none =>
            match overlapEnd metadata.pendingMap (metadata.pendingMap.upperBound lookupKey)
                lookupKey with
            | some e => metadata.getNextOrphanRange e.2.maxKey
            | none => some (metadata.closestBounds lookupKey)
      else none := by
  rw [getNextOrphanRange]
  split_ifs
  · split
    · simp_all
    · split
      · simp_all
      · simp_all
  · rfl

theorem getNextOrphanRange_spec (hchunks : metadata.chunksMap.Disjoint)
    (hpending : metadata.pendingMap.Disjoint) (lookupKey : BSONObj)
    (hmin : metadata.getMinKey.rank ≤ lookupKey.rank) :
    metadata.IsNextOrphan lookupKey (metadata.getNextOrphanRange lookupKey) ∧
      ∀ r, metadata.getNextOrphanRange lookupKey = some r →
        r.maxKey.rank ∈ metadata.rangeStarts := by
  induction lookupKey using getNextOrphanRange.induct metadata with
  | case1 lookupKey hlt e hchunk ih =>
    obtain ⟨he, hkey⟩ := overlapEnd_eq_some hchunks hchunk
    rw [getNextOrphanRange_eq, if_pos hlt, hchunk]
    exact (ih (hmin.trans hkey.2.le)).imp_left (isNextHole_of_overlap (mem_append_left _ he) hkey)
  | case2 lookupKey hlt hchunk e hpend ih =>
    obtain ⟨he, hkey⟩ := overlapEnd_eq_some hpending hpend
    rw [getNextOrphanRange_eq, if_pos hlt, hchunk, hpend]
    exact (ih (hmin.trans hkey.2.le)).imp_left (isNextHole_of_overlap (mem_append_right _ he) hkey)
  | case3 lookupKey hlt hchunk hpend =>
    rw [getNextOrphanRange_eq, if_pos hlt, hchunk, hpend]
    obtain ⟨hnext, hstart⟩ := closestBounds_spec hchunks hpending hmin
      (woCompareNested_lt_iff.mp hlt) (overlapEnd_eq_none hchunks hchunk)
      (overlapEnd_eq_none hpending hpend)
    refine ⟨hnext, ?_⟩
    rintro _ ⟨⟩
    exact hstart
  | case4 lookupKey hge =>
    rw [getNextOrphanRange_eq, if_neg hge]
    rw [woCompareNested_lt_iff, not_lt] at hge
    exact ⟨fun x hx y hy hole => hole.le_top.trans hge, fun _ => nofun⟩

end Search

/-- Calls that each go on where the last orphan range ended return every orphan range once and in
order, and a key belongs to the shard if a chunk contains it. -/
theorem orphanRanges_exact (metadata : CollectionMetadata) (hbuilt : metadata.IsBuilt)
    (hchunks : metadata.chunksMap.Disjoint) (hpending : metadata.pendingMap.Disjoint)
    (hkeys : ∀ e ∈ metadata.chunksMap.entries, e.1 ≠ []) :
    (∃ rs, metadata.orphanRanges
        (metadata.chunksMap.entries.length + metadata.pendingMap.entries.length + 2)
        metadata.getMinKey = some rs ∧
      (∀ minKey maxKey : BSONObj,
        (∃ r ∈ rs, woCompareNested r.minKey minKey = 0 ∧ woCompareNested r.maxKey maxKey = 0) ↔
          metadata.IsOrphanRange minKey maxKey) ∧
      rs.Pairwise fun r s => woCompareNested r.maxKey s.minKey ≤ 0) ∧
    ∀ key, metadata.keyBelongsToMe key = true ↔
      ∃ e ∈ metadata.chunksMap.entries, rangeContains e.1 e.2.maxKey key = true := by
  refine ⟨?_, hbuilt.keyBelongsToMe_iff hchunks hkeys⟩
  have hcard : (metadata.rangeStarts.toFinset.filter fun y => metadata.getMinKey.rank < y).card <
      metadata.chunksMap.entries.length + metadata.pendingMap.entries.length + 2 := by
    have hfilter := Finset.card_filter_le metadata.rangeStarts.toFinset
      fun y => metadata.getMinKey.rank < y
    have hlist := toFinset_card_le metadata.rangeStarts
    have hlength : metadata.rangeStarts.length =
        metadata.chunksMap.entries.length + metadata.pendingMap.entries.length + 1 := by
      simp [rangeStarts]
    omega
  obtain ⟨rs, hrs, hmem, hordered, -⟩ := enumerate_holes
    (fun r : KeyRange => (rfl : r.maxKey.rank = rank (KeyRange.maxKey r)))
    (fun k hk => (getNextOrphanRange_spec hchunks hpending k hk).1) metadata.rangeStarts.toFinset
    (fun k hk r hr => mem_toFinset.mpr ((getNextOrphanRange_spec hchunks hpending k hk).2 r hr))
    _ metadata.getMinKey (le_refl _) hcard
  refine ⟨rs, hrs, fun minKey maxKey => ?_, hordered.imp fun hle => woCompareNested_le_iff.mpr hle⟩
  simp only [woCompareNested_eq_iff]
  rw [hmem _ ⟨minKey, rfl⟩ _ ⟨maxKey, rfl⟩]
  exact and_iff_left_of_imp fun hole => hole.bot_le.trans_lt hole.lt

def keyOf (n : BitVec 32) : BSONObj := [(⟨[0x61], CString.nul_notMem_a⟩, .number (.numberInt n))]

def oneRange (min max : BitVec 32) (version : ChunkVersion) : RangeMap :=
  ⟨[(keyOf min, ⟨keyOf max, version⟩)], pairwise_singleton _ _⟩

theorem oneRange_disjoint {min max : BitVec 32} (version : ChunkVersion)
    (h : woCompareNested (keyOf min) (keyOf max) < 0) : (oneRange min max version).Disjoint := by
  constructor
  · intro e he
    rw [mem_singleton.mp he]
    exact woCompareNested_lt_iff.mp h
  · exact pairwise_singleton _ _

/-- A chunk from 5 to 10, while the range from 20 to 30 is pending. -/
def fiveToTen : CollectionMetadata :=
  let version := ChunkVersion.ofParts 1 0 ⟨List.replicate 12 7, OID.length_sevens⟩
  ⟨⟨keyOf 1, [⟨[[0x61]]⟩]⟩, version, version, oneRange 5 10 version,
    oneRange 20 30 .IGNORED, .ofRanges [(keyOf 5, keyOf 10)]⟩

theorem orphanRanges_exact_fiveToTen :
    fiveToTen.IsBuilt ∧ ∃ rs, fiveToTen.orphanRanges 4 fiveToTen.getMinKey = some rs ∧
      ∀ minKey maxKey : BSONObj,
        (∃ r ∈ rs, woCompareNested r.minKey minKey = 0 ∧ woCompareNested r.maxKey maxKey = 0) ↔
          fiveToTen.IsOrphanRange minKey maxKey := by
  have hbuilt : fiveToTen.IsBuilt :=
    ⟨keyOf 1, fiveToTen.collVersion, fiveToTen.shardVersion, fiveToTen.chunksMap,
      { fiveToTen with pendingMap := .empty }, rfl, rfl⟩
  have h := orphanRanges_exact fiveToTen hbuilt
    (oneRange_disjoint _ (by decide +kernel)) (oneRange_disjoint _ (by decide +kernel))
    (by simp [fiveToTen, oneRange, keyOf])
  obtain ⟨⟨rs, hrs, hmem, -⟩, -⟩ := h
  exact ⟨hbuilt, rs, hrs, hmem⟩

end CollectionMetadata
end MongoServer
