import MongoServer.Sharding.RangeArithmetic
import MongoServer.Sharding.ShardKeyPattern

/-!
What a shard knows of a collection: the chunks it owns, the ranges it is about to receive, and
the owned chunks once more with adjacent ones joined. Ranges of keys that are in none of them are
orphans.
-/
namespace MongoServer

structure CollectionMetadata where
  shardKeyPattern : ShardKeyPattern
  collVersion : ChunkVersion
  shardVersion : ChunkVersion
  chunksMap : RangeMap
  pendingMap : RangeMap
  rangesMap : RangeMap

structure KeyRange where
  keyPattern : BSONObj
  minKey : BSONObj
  maxKey : BSONObj

namespace RangeMap

def eraseAll (ranges : RangeMap) (overlap : List (BSONObj × BSONObj)) : RangeMap :=
  overlap.foldl (fun m r => m.erase r.1) ranges

def ofRanges (ranges : List (BSONObj × BSONObj)) : RangeMap :=
  ranges.foldl (fun m r => m.emplace r.1 ⟨r.2, ChunkVersion.IGNORED⟩) empty

/-- The range before the upper bound of a key holds it, or the first one if there is none. -/
def containsKey (ranges : RangeMap) (key : BSONObj) : Bool :=
  let it := ranges.upperBound key
  let it := if it ≠ 0 then it - 1 else it
  ranges.entries[it]?.any fun e => rangeContains e.1 e.2.maxKey key

theorem mem_before {ranges : RangeMap} {it : ℕ} {e : BSONObj × CachedChunkInfo}
    (h : ranges.before it = some e) : e ∈ ranges.entries := by
  unfold before at h
  split_ifs at h
  exact List.mem_of_getElem? h

end RangeMap

namespace CollectionMetadata

/-- The loop over the chunks. Before the first chunk the current range is empty. -/
def coalesce : BSONObj → BSONObj → List (BSONObj × CachedChunkInfo) → List (BSONObj × BSONObj)
  | min, max, [] => [(min, max)]
  | min, max, (currMin, info) :: rest =>
      if min.isEmpty then coalesce currMin info.maxKey rest
      else if woCompareNested max currMin = 0 then coalesce min info.maxKey rest
      else (min, max) :: coalesce currMin info.maxKey rest

/-- The constructor; `none` where an invariant does not hold. -/
def new (keyPattern : BSONObj) (collectionVersion shardVersion : ChunkVersion)
    (shardChunksMap : RangeMap) : Option CollectionMetadata :=
  let shardKeyPattern := ShardKeyPattern.new keyPattern
  if !shardKeyPattern.isValid || collectionVersion.epoch ≠ shardVersion.epoch ||
      !collectionVersion.isSet || collectionVersion.combined < shardVersion.combined then none
  else if shardChunksMap.isEmpty then
    if shardVersion.isSet then none
    else some ⟨shardKeyPattern, collectionVersion, shardVersion, shardChunksMap, .empty, .empty⟩
  else
    let ranges := coalesce [] [] shardChunksMap.entries
    -- the last range must have both bounds
    let complete := ranges.getLast?.any fun r => !r.1.isEmpty && !r.2.isEmpty
    if !shardVersion.isSet || !complete then none
    else some ⟨shardKeyPattern, collectionVersion, shardVersion, shardChunksMap, .empty,
      .ofRanges ranges⟩

variable (metadata : CollectionMetadata) (ranges : RangeMap)

def cloneWithPending (pendingMap : RangeMap) : Option CollectionMetadata :=
  (new metadata.shardKeyPattern.keyPattern metadata.collVersion metadata.shardVersion
    metadata.chunksMap).map fun clone => { clone with pendingMap := pendingMap }

def cloneMinusPending (chunk : ChunkRange) : Option CollectionMetadata :=
  if rangeMapContains metadata.pendingMap chunk.min chunk.max then
    metadata.cloneWithPending (metadata.pendingMap.erase chunk.min)
  else none

/-- Pending ranges that overlap the new one give way to it. -/
def clonePlusPending (chunk : ChunkRange) : Option CollectionMetadata :=
  if rangeMapOverlaps metadata.chunksMap chunk.min chunk.max then none
  else
    let pendingMap :=
      if rangeMapOverlaps metadata.pendingMap chunk.min chunk.max then
        metadata.pendingMap.eraseAll (getRangeMapOverlap metadata.pendingMap chunk.min chunk.max)
      else metadata.pendingMap
    metadata.cloneWithPending (pendingMap.emplace chunk.min ⟨chunk.max, ChunkVersion.IGNORED⟩)

def keyBelongsToMe (key : BSONObj) : Bool :=
  if metadata.rangesMap.isEmpty then false else metadata.rangesMap.containsKey key

def keyIsPending (key : BSONObj) : Bool :=
  if metadata.pendingMap.isEmpty then false else metadata.pendingMap.containsKey key

def getMinKey : BSONObj := KeyPattern.globalMin metadata.shardKeyPattern.keyPattern

def getMaxKey : BSONObj := KeyPattern.globalMax metadata.shardKeyPattern.keyPattern

/-- The range before a position ends after a key. -/
def overlapEnd (it : ℕ) (lookupKey : BSONObj) : Option (BSONObj × CachedChunkInfo) :=
  (ranges.before it).filter fun e => 0 < woCompareNested e.2.maxKey lookupKey

/-- A lower bound moves up to the end of the range before a position. -/
def raiseMin (it : ℕ) (minKey : BSONObj) : BSONObj :=
  match ranges.before it with
  | some e => if 0 < woCompareNested e.2.maxKey minKey then e.2.maxKey else minKey
  | none => minKey

/-- An upper bound moves down to the start of the range at a position. -/
def lowerMax (it : ℕ) (maxKey : BSONObj) : BSONObj :=
  match ranges.entries[it]? with
  | some e => if woCompareNested e.1 maxKey < 0 then e.1 else maxKey
  | none => maxKey

/-- The closest bounds of the surrounding ranges in both maps. -/
def closestBounds (lookupKey : BSONObj) : KeyRange :=
  let upperChunkIt := metadata.chunksMap.upperBound lookupKey
  let upperPendingIt := metadata.pendingMap.upperBound lookupKey
  let minKey := raiseMin metadata.chunksMap upperChunkIt metadata.getMinKey
  let maxKey := lowerMax metadata.chunksMap upperChunkIt metadata.getMaxKey
  ⟨metadata.shardKeyPattern.keyPattern, raiseMin metadata.pendingMap upperPendingIt minKey,
    lowerMax metadata.pendingMap upperPendingIt maxKey⟩

/-- How many ranges end after a key; every overlap that is passed leaves one less. -/
def rangesAhead (lookupKey : BSONObj) : ℕ :=
  (metadata.chunksMap.entries ++ metadata.pendingMap.entries).countP fun e =>
    0 < woCompareNested e.2.maxKey lookupKey

theorem rangesAhead_lt {ranges : RangeMap} {it : ℕ} {lookupKey : BSONObj}
    {e : BSONObj × CachedChunkInfo}
    (hsub : ranges.entries ⊆ metadata.chunksMap.entries ++ metadata.pendingMap.entries)
    (h : overlapEnd ranges it lookupKey = some e) :
    metadata.rangesAhead e.2.maxKey < metadata.rangesAhead lookupKey := by
  obtain ⟨hbefore, hpos⟩ := Option.filter_eq_some_iff.mp h
  have hmem := hsub (RangeMap.mem_before hbefore)
  refine Ranges.countP_lt_countP (fun d _ hd => ?_) hmem ?_ hpos
  · rw [decide_eq_true_iff, woCompareNested_pos_iff, woCompareNested_lt_iff] at hd hpos ⊢
    exact hpos.trans hd
  · rw [decide_eq_false_iff_not, woCompareNested_pos_iff, woCompareNested_lt_iff]
    exact lt_irrefl _

/-- As long as the key is in some range, the search goes on at the end of it. -/
def getNextOrphanRange (lookupKey : BSONObj) : Option KeyRange :=
  if woCompareNested lookupKey metadata.getMaxKey < 0 then
    match _hchunk : overlapEnd metadata.chunksMap (metadata.chunksMap.upperBound lookupKey)
        lookupKey with
    | some e => getNextOrphanRange e.2.maxKey
    | none =>
        match _hpending : overlapEnd metadata.pendingMap
            (metadata.pendingMap.upperBound lookupKey) lookupKey with
        | some e => getNextOrphanRange e.2.maxKey
        | none => some (metadata.closestBounds lookupKey)
  else none
termination_by metadata.rangesAhead lookupKey
decreasing_by
  · exact metadata.rangesAhead_lt (List.subset_append_left _ _) _hchunk
  · exact metadata.rangesAhead_lt (List.subset_append_right _ _) _hpending

/-- Every call goes on from the end of the range that the last one returned. -/
def orphanRanges : ℕ → BSONObj → Option (List KeyRange) :=
  Ranges.enumerate metadata.getNextOrphanRange KeyRange.maxKey

end CollectionMetadata
end MongoServer
