import MongoServer.Ranges.Tiling
import MongoServer.Sharding.ChunkManager
import MongoServer.Transition.Runs

/-!
Looking up closed ranges of shard keys in the routing table. A lookup finds the shards with a
chunk that the range meets, and neither early exit loses one of them. It gives up on a range
that starts where the table ends.
-/
namespace MongoServer
open Ranges Transition ChunkManager List

section Routes

namespace Chunk

def lo (c : Chunk) : Rank := c.min.rank

def hi (c : Chunk) : Rank := c.max.rank

end Chunk

namespace ShardAndChunkRange

def lo (r : ShardAndChunkRange) : Rank := r.range.min.rank

def hi (r : ShardAndChunkRange) : Rank := r.range.max.rank

end ShardAndChunkRange

/-- Chunks that follow each other from the lowest key of a pattern to the highest. -/
structure PartitionsKeySpace (keyPattern : BSONObj) (chunks : List Chunk) : Prop where
  consecutive : Consecutive Chunk.lo Chunk.hi
    (BSONObj.rank (keyPattern.map fun e => (e.1, .minKey))) chunks
    (BSONObj.rank (keyPattern.map fun e => (e.1, .maxKey)))
  lt : ∀ c ∈ chunks, c.lo < c.hi

/-- The ranges that chunks are joined to, after a range that is still open. -/
def joinChunks (current : ShardAndChunkRange) : List Chunk → List ShardAndChunkRange
  | [] => [current]
  | chunk :: rest =>
      if chunk.shardId = current.shardId then
        joinChunks { current with range := ⟨current.range.min, chunk.max⟩ } rest
      else current :: joinChunks ⟨⟨chunk.min, chunk.max⟩, chunk.shardId⟩ rest

/-- A closed range of ranks meets a half-open one. -/
def MeetsRanks (x y lo hi : Rank) : Prop := x < hi ∧ lo ≤ y

variable {x y a b : Rank} {current : ShardAndChunkRange} {chunks rest : List Chunk}
  {id : String} {shardVersions : List (String × ChunkVersion)} {ids : List String}
    {text : Rendering} {views views' : ChunkMapViews}

theorem joinChunks_spec (hle : current.lo < current.hi)
    (h : Consecutive Chunk.lo Chunk.hi current.hi rest b) (hlt : ∀ c ∈ rest, c.lo < c.hi) :
    Consecutive ShardAndChunkRange.lo ShardAndChunkRange.hi current.lo (joinChunks current rest) b ∧
      (∀ r ∈ joinChunks current rest, r.lo < r.hi) ∧ joinChunks current rest ≠ [] ∧
      ∀ x y id, x ≤ y →
        ((∃ r ∈ joinChunks current rest, r.shardId = id ∧ MeetsRanks x y r.lo r.hi) ↔
          (current.shardId = id ∧ MeetsRanks x y current.lo current.hi) ∨
            ∃ c ∈ rest, c.shardId = id ∧ MeetsRanks x y c.lo c.hi) := by
  induction rest generalizing current with
  | nil =>
    rw [← h.eq_of_nil]
    exact ⟨.cons hle.le (.nil _), forall_mem_singleton.mpr hle, cons_ne_nil _ _,
      by simp [joinChunks]⟩
  | cons chunk rest ih =>
    have heq : current.hi = chunk.lo := h.eq_lo
    rw [heq] at h
    have hchunk := hlt chunk mem_cons_self
    have hrest := (forall_mem_cons.mp hlt).2
    obtain ⟨-, h⟩ := h.tail
    rw [joinChunks]
    split_ifs with hshard
    · obtain ⟨hcons, hall, hne, hmeets⟩ := @ih ⟨⟨current.range.min, chunk.max⟩, current.shardId⟩
        ((heq ▸ hle).trans hchunk) h hrest
      refine ⟨hcons, hall, hne, fun x y id hxy => ?_⟩
      rw [hmeets x y id hxy]
      have hjoined : MeetsRanks x y current.lo chunk.hi ↔
          MeetsRanks x y current.lo current.hi ∨ MeetsRanks x y chunk.lo chunk.hi := by
        constructor
        · rintro ⟨hx, hy⟩
          rcases lt_or_ge x current.hi with hlt | hge
          · exact Or.inl ⟨hlt, hy⟩
          · exact Or.inr ⟨hx, heq ▸ hge.trans hxy⟩
        · rintro (⟨hx, hy⟩ | ⟨hx, hy⟩)
          · exact ⟨hx.trans (heq ▸ hchunk), hy⟩
          · exact ⟨hx, (heq ▸ hle).le.trans hy⟩
      rw [exists_mem_cons_iff, hshard, ← or_assoc, ← and_or_left, ← hjoined]
      rfl
    · obtain ⟨hcons, hall, -, hmeets⟩ := @ih ⟨⟨chunk.min, chunk.max⟩, chunk.shardId⟩ hchunk h hrest
      refine ⟨.cons hle.le (heq ▸ hcons), forall_mem_cons.mpr ⟨hle, hall⟩, cons_ne_nil _ _, ?_⟩
      intro x y id hxy
      rw [exists_mem_cons_iff, exists_mem_cons_iff, hmeets x y id hxy]
      rfl

theorem trackShardVersion_names (epoch : OID) (chunk : Chunk)
    (shardVersions : List (String × ChunkVersion)) :
    (trackShardVersion epoch chunk shardVersions).map Prod.fst =
      if chunk.shardId ∈ shardVersions.map Prod.fst then shardVersions.map Prod.fst
      else shardVersions.map Prod.fst ++ [chunk.shardId] := by
  induction shardVersions with
  | nil => rfl
  | cons entry rest ih =>
    obtain ⟨shardId, version⟩ := entry
    by_cases heq : shardId = chunk.shardId
    · simp [trackShardVersion, heq]
    · have hmem : chunk.shardId ∈ ((shardId, version) :: rest).map Prod.fst ↔
          chunk.shardId ∈ rest.map Prod.fst := by
        rw [map_cons, mem_cons, or_iff_right fun h => heq h.symm]
      rw [trackShardVersion, if_neg heq, map_cons, ih]
      simp only [hmem]
      split_ifs
      · rfl
      · rfl

def NamesShards (shardVersions : List (String × ChunkVersion)) (ids : List String) : Prop :=
  (shardVersions.map Prod.fst).Nodup ∧ ∀ id, id ∈ shardVersions.map Prod.fst ↔ id ∈ ids

theorem NamesShards.track (h : NamesShards shardVersions ids) (epoch : OID) (chunk : Chunk) :
    NamesShards (trackShardVersion epoch chunk shardVersions) (ids ++ [chunk.shardId]) := by
  obtain ⟨hnodup, hmem⟩ := h
  unfold NamesShards
  rw [trackShardVersion_names]
  split_ifs with hseen
  · refine ⟨hnodup, fun id => ?_⟩
    rw [hmem, mem_append, mem_singleton]
    constructor
    · exact Or.inl
    · rintro (hid | rfl)
      · exact hid
      · exact (hmem _).mp hseen
  · refine ⟨nodup_append.mpr ⟨hnodup, nodup_singleton _, ?_⟩, fun id => ?_⟩
    · intro id hid shard hshard heq
      rw [mem_singleton] at hshard
      exact hseen (hshard ▸ heq ▸ hid)
    · rw [mem_append, mem_append, hmem]

theorem NamesShards.length
    (h : NamesShards shardVersions ids) : shardVersions.length = ids.toFinset.card := by
  have heq : ids.toFinset = (shardVersions.map Prod.fst).toFinset := by
    ext id
    rw [mem_toFinset, mem_toFinset, h.2]
  rw [heq, toFinset_card_of_nodup h.1, length_map]

theorem insertRange_ok {r : ShardAndChunkRange} (h : insertRange text views r = .ok views') :
    views' = { views with chunkRangeMap := views.chunkRangeMap ++ [r] } := by
  unfold insertRange at h
  dsimp only at h
  split at h
  · exact absurd h (by simp)
  · split_ifs at h
    exact (Except.ok.inj h).symm

theorem constructFrom_ok {epoch : OID}
    (h : constructFrom text epoch views current rest = .ok views')
    (hids : NamesShards views.shardVersions ids) :
    views'.chunkRangeMap = views.chunkRangeMap ++ joinChunks current rest ∧
      NamesShards views'.shardVersions (ids ++ rest.map Chunk.shardId) := by
  induction rest generalizing views current ids with
  | nil =>
    rw [insertRange_ok h]
    exact ⟨rfl, by simpa using hids⟩
  | cons chunk rest ih =>
    rw [constructFrom] at h
    rw [joinChunks]
    split_ifs at h ⊢ with hshard
    · obtain ⟨hmap, hnames⟩ := ih h (hids.track epoch chunk)
      exact ⟨hmap, by simpa using hnames⟩
    · obtain ⟨inserted, hinserted, h⟩ := bind_eq_ok.mp h
      rw [insertRange_ok hinserted] at h
      obtain ⟨hmap, hnames⟩ := ih h (hids.track epoch chunk)
      refine ⟨?_, by simpa using hnames⟩
      rw [hmap]
      exact append_assoc _ _ _

/-- What a routing table knows of the chunks it was made from. -/
structure Routes (chunks : List Chunk) (views : ChunkMapViews) (a b : Rank) : Prop where
  consecutive : Consecutive ShardAndChunkRange.lo ShardAndChunkRange.hi a views.chunkRangeMap b
  lt : ∀ r ∈ views.chunkRangeMap, r.lo < r.hi
  nonempty : views.chunkRangeMap ≠ []
  meets : ∀ x y id, x ≤ y →
    ((∃ r ∈ views.chunkRangeMap, r.shardId = id ∧ MeetsRanks x y r.lo r.hi) ↔
      ∃ c ∈ chunks, c.shardId = id ∧ MeetsRanks x y c.lo c.hi)
  shards : views.shardVersions.length = (chunks.map Chunk.shardId).toFinset.card

theorem constructChunkMapViews_ok {epoch : OID} {first : Chunk}
    (h : constructChunkMapViews text epoch (first :: rest) = .ok views) :
    constructFrom text epoch (trackChunk epoch first ⟨[], []⟩)
        ⟨⟨first.min, first.max⟩, first.shardId⟩ rest = .ok views ∧
      views.chunkRangeMap = joinChunks ⟨⟨first.min, first.max⟩, first.shardId⟩ rest ∧
      NamesShards views.shardVersions (first.shardId :: rest.map Chunk.shardId) ∧
      checkCoversKeySpace text views = .ok () := by
  rw [constructChunkMapViews] at h
  obtain ⟨built, hbuilt, h⟩ := bind_eq_ok.mp h
  obtain ⟨_, hcovers, rfl⟩ := bind_pure_eq_ok.mp h
  have hnone : NamesShards [] [] := ⟨nodup_nil, fun id => Iff.rfl⟩
  obtain ⟨hmap, hnames⟩ := constructFrom_ok hbuilt (hnone.track epoch first)
  exact ⟨hbuilt, hmap, hnames, hcovers⟩

theorem routes_of_construct {epoch : OID} {views : ChunkMapViews}
    (h : constructChunkMapViews text epoch chunks = .ok views)
    (hchunks : Consecutive Chunk.lo Chunk.hi a chunks b) (hlt : ∀ c ∈ chunks, c.lo < c.hi) :
    Routes chunks views a b := by
  cases chunks with
  | nil => exact absurd h (by simp [constructChunkMapViews])
  | cons first rest =>
    obtain ⟨-, hmap, hnames, -⟩ := constructChunkMapViews_ok h
    have hfirst := hlt first mem_cons_self
    have hrest := (forall_mem_cons.mp hlt).2
    have htail := hchunks.tail.2
    have hstart : a = first.lo := hchunks.eq_lo
    obtain ⟨hcons, hall, hne, hmeets⟩ :=
      @joinChunks_spec b ⟨⟨first.min, first.max⟩, first.shardId⟩ rest hfirst htail hrest
    rw [← hmap] at hcons hall hne hmeets
    refine ⟨hstart ▸ hcons, hall, hne, fun x y id hxy => ?_, hnames.length⟩
    rw [hmeets x y id hxy, exists_mem_cons_iff]
    rfl

end Routes

section Lookup
variable {chunks : List Chunk} {views : ChunkMapViews} {a b : Rank} {min max : BSONObj}
  {shardIds : Finset String}

def owners (chunks : List Chunk) : Finset String := (chunks.map Chunk.shardId).toFinset

def Chunk.Meets (range : BSONObj × BSONObj) (c : Chunk) : Prop :=
  MeetsRanks range.1.rank range.2.rank c.lo c.hi

theorem mem_owners {c : Chunk} (hc : c ∈ chunks) : c.shardId ∈ owners chunks :=
  mem_toFinset.mpr (mem_map_of_mem hc)

theorem subset_owners {found : Finset String} {P : Chunk → Prop} (hsub : shardIds ⊆ owners chunks)
    (hmem : ∀ id, id ∈ found ↔ id ∈ shardIds ∨ ∃ c ∈ chunks, c.shardId = id ∧ P c) :
    found ⊆ owners chunks := by
  intro id hid
  rcases (hmem id).mp hid with hid | ⟨c, hc, rfl, -⟩
  · exact hsub hid
  · exact mem_owners hc

section
variable (h : Routes chunks views a b)
include h

theorem eq_owners_of_card (hsub : shardIds ⊆ owners chunks)
    (hcard : shardIds.card = views.shardVersions.length) : shardIds = owners chunks :=
  Finset.eq_of_subset_of_card_le hsub (h.shards ▸ hcard).ge

theorem Routes.shardId_mem_owners {r : ShardAndChunkRange}
    (hr : r ∈ views.chunkRangeMap) : r.shardId ∈ owners chunks := by
  obtain ⟨c, hc, heq, -⟩ := (h.meets r.lo r.lo r.shardId (le_refl _)).mp
    ⟨r, hr, rfl, h.lt r hr, le_refl _⟩
  exact heq ▸ mem_owners hc

theorem collectShards_eq (hsub : shardIds ⊆ owners chunks)
    (ranges : List ShardAndChunkRange) (hranges : ∀ r ∈ ranges, r ∈ views.chunkRangeMap) :
    collectShards views.shardVersions.length ranges shardIds =
      shardIds ∪ (ranges.map ShardAndChunkRange.shardId).toFinset := by
  induction ranges generalizing shardIds with
  | nil => simp [collectShards]
  | cons r rest ih =>
    have hrest : ∀ q ∈ rest, q ∈ views.chunkRangeMap := fun q hq =>
      hranges q (mem_cons_of_mem _ hq)
    have hinsert : insert r.shardId shardIds ⊆ owners chunks :=
      Finset.insert_subset (h.shardId_mem_owners (hranges r mem_cons_self)) hsub
    have hunion : shardIds ∪ ((r :: rest).map ShardAndChunkRange.shardId).toFinset =
        insert r.shardId shardIds ∪ (rest.map ShardAndChunkRange.shardId).toFinset := by
      ext id
      simp only [map_cons, toFinset_cons, Finset.mem_union, Finset.mem_insert]
      tauto
    rw [collectShards, hunion]
    split_ifs with hcard
    · have hall := eq_owners_of_card h hinsert hcard
      refine (Finset.union_eq_left.mpr fun id hid => ?_).symm
      obtain ⟨q, hq, rfl⟩ := mem_map.mp (mem_toFinset.mp hid)
      rw [hall]
      exact h.shardId_mem_owners (hrest q hq)
    · exact ih hinsert hrest

theorem upperBound_eq_length_iff (key : BSONObj) :
    upperBound views key = views.chunkRangeMap.length ↔ b ≤ key.rank := by
  unfold upperBound
  rw [findIdx_eq_length]
  constructor
  · intro hnone
    obtain ⟨r, hr, hend⟩ := h.consecutive.exists_hi h.nonempty
    have hnot := hnone r hr
    rw [decide_eq_false_iff_not, woCompareNested_lt_iff, not_lt] at hnot
    exact hend ▸ hnot
  · intro hle r hr
    rw [decide_eq_false_iff_not, woCompareNested_lt_iff, not_lt]
    exact (h.consecutive.bounds hr).2.trans hle

theorem getShardIdsForRange_ok (hsub : shardIds ⊆ owners chunks)
    (hle : min.rank ≤ max.rank) (hlow : a ≤ max.rank) (hhigh : min.rank < b) :
    ∃ found, getShardIdsForRange views min max shardIds = .ok found ∧
      ∀ id, id ∈ found ↔ id ∈ shardIds ∨ ∃ c ∈ chunks, c.shardId = id ∧ c.Meets (min, max) := by
  have hinside : ¬upperBound views min = views.chunkRangeMap.length := fun heq =>
    absurd ((upperBound_eq_length_iff h min).mp heq) (not_le.mpr hhigh)
  have hslice : ∀ r, r ∈ (views.chunkRangeMap.take
        (if upperBound views max = views.chunkRangeMap.length then
          upperBound views max else upperBound views max + 1)).drop
        (upperBound views min) ↔
      r ∈ views.chunkRangeMap ∧ MeetsRanks min.rank max.rank r.lo r.hi := by
    intro r
    have htake : views.chunkRangeMap.take (if upperBound views max = views.chunkRangeMap.length then
          upperBound views max else upperBound views max + 1) =
        views.chunkRangeMap.take (upperBound views max + 1) := by
      split_ifs with heq
      · rw [take_of_length_le heq.ge, take_of_length_le (by omega)]
      · rfl
    have hupper : ∀ key : BSONObj, upperBound views key =
        views.chunkRangeMap.findIdx fun r => key.rank < r.hi := by
      intro key
      unfold upperBound
      simp only [woCompareNested_lt_iff]
      rfl
    rw [htake, hupper, hupper]
    exact h.consecutive.mem_slice h.lt hlow hle r
  refine ⟨_, if_neg hinside, fun id => ?_⟩
  rw [collectShards_eq h hsub _ fun r hr => ((hslice r).mp hr).1, Finset.mem_union,
    mem_toFinset, mem_map]
  have hmeets := h.meets min.rank max.rank id hle
  constructor
  · rintro (hid | ⟨r, hr, hid⟩)
    · exact Or.inl hid
    · obtain ⟨hmem, hmeet⟩ := (hslice r).mp hr
      exact Or.inr (hmeets.mp ⟨r, hmem, hid, hmeet⟩)
  · rintro (hid | hchunk)
    · exact Or.inl hid
    · obtain ⟨r, hmem, hid, hmeet⟩ := hmeets.mpr hchunk
      exact Or.inr ⟨r, (hslice r).mpr ⟨hmem, hmeet⟩, hid⟩

theorem getShardIdsForRanges_beyond {range : BSONObj × BSONObj} (hbeyond : b ≤ range.1.rank)
    (later : ShardKeyPattern.BoundList) :
    getShardIdsForRanges views (range :: later) shardIds = .error .invariant := by
  have herror : getShardIdsForRange views range.1 range.2 shardIds = .error .invariant :=
    if_pos ((upperBound_eq_length_iff h range.1).mpr hbeyond)
  rw [getShardIdsForRanges, herror]
  rfl

end

variable {ranges : ShardKeyPattern.BoundList}

/-- A closed range that does not lie below or beyond the table. -/
structure StartsInside (a b : Rank) (range : BSONObj × BSONObj) : Prop where
  le : range.1.rank ≤ range.2.rank
  low : a ≤ range.2.rank
  high : range.1.rank < b

/-- A lookup goes on after some ranges unless it has found all shards. -/
theorem getShardIdsForRanges_append (h : Routes chunks views a b) (hsub : shardIds ⊆ owners chunks)
    (hnotAll : shardIds ≠ owners chunks) (hranges : ∀ range ∈ ranges, StartsInside a b range)
    (later : ShardKeyPattern.BoundList) :
    ∃ found, (∀ id, id ∈ found ↔ id ∈ shardIds ∨
        ∃ c ∈ chunks, c.shardId = id ∧ ∃ range ∈ ranges, c.Meets range) ∧
      getShardIdsForRanges views (ranges ++ later) shardIds =
        if found = owners chunks then .ok found else getShardIdsForRanges views later found := by
  induction ranges generalizing shardIds with
  | nil => exact ⟨shardIds, fun id => by simp, (if_neg hnotAll).symm⟩
  | cons range rest ih =>
    obtain ⟨min, max⟩ := range
    have hrange := hranges (min, max) mem_cons_self
    obtain ⟨found, hfound, hmem⟩ := getShardIdsForRange_ok h hsub hrange.le hrange.low hrange.high
    have hfoundSub := subset_owners hsub hmem
    have hcard : found.card = views.shardVersions.length ↔ found = owners chunks :=
      ⟨eq_owners_of_card h hfoundSub, fun heq => heq ▸ h.shards.symm⟩
    simp only [cons_append, getShardIdsForRanges, hfound, bind, Except.bind, hcard]
    by_cases hall : found = owners chunks
    · refine ⟨found, fun id => ?_, by rw [if_pos hall, if_pos hall]⟩
      rw [hmem]
      constructor
      · rintro (hid | ⟨c, hc, hid, hmeets⟩)
        · exact Or.inl hid
        · exact Or.inr ⟨c, hc, hid, (min, max), mem_cons_self, hmeets⟩
      · rintro (hid | ⟨c, hc, rfl, -⟩)
        · exact Or.inl hid
        · exact (hmem _).mp (hall ▸ mem_owners hc)
    · obtain ⟨all, hmemAll, hrun⟩ := ih hfoundSub hall (forall_mem_cons.mp hranges).2
      refine ⟨all, fun id => ?_, by rw [if_neg hall, hrun]⟩
      rw [hmemAll, hmem, or_assoc]
      apply or_congr Iff.rfl
      simp [and_or_left, exists_or]

end Lookup
end MongoServer
