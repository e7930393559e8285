import MongoServer.Query.IndexBounds
import MongoServer.Sharding.ChunkOperations

/-!
The routing table of a collection. Chunks are kept in a map by their upper bound; consecutive
chunks of one shard are joined to ranges, which are kept by their upper bound as well. The
bounds of a query become closed ranges of shard keys, and each of them is looked up among
the ranges.
-/
namespace MongoServer

namespace ShardKeyPattern

def kMaxFlattenedInCombinations : ℕ := 4000000

/-- Pairs of shard keys under construction, and in the end closed ranges. -/
abbrev BoundList := List (BSONObj × BSONObj)

/-- What `front` and `back` of a list with no interval would be; there is none. -/
def noInterval : Interval := ⟨.minKey, false, .minKey, false⟩

def isSinglePoint (oil : OrderedIntervalList) : Bool :=
  oil.intervals.length = 1 && (oil.intervals.headD noInterval).isPoint

variable (fieldName : CString)

def appendToAll (start stop : BSONValue) (builders : BoundList) : BoundList :=
  builders.map fun b => (b.1 ++ [(fieldName, start)], b.2 ++ [(fieldName, stop)])

/-- One more pair for a pair and an interval, unless there are too many. -/
def emplaceInterval (b : BSONObj × BSONObj) (newBuilders : BoundList)
    (i : Interval) : Except Failure BoundList :=
  if newBuilders.length < kMaxFlattenedInCombinations then
    .ok (newBuilders ++ [(b.1 ++ [(fieldName, i.start)], b.2 ++ [(fieldName, i.stop)])])
  else .error (.status ⟨17439, "combinatorial limit of $in partitioning of results exceeded"⟩)

def multiplyBuilders (intervals : List Interval) (builders : BoundList) :
    Except Failure BoundList :=
  builders.foldlM (fun new b => intervals.foldlM (emplaceInterval fieldName b) new) []

/-- The loop over the fields. Until `equalityOnly` is false every field is a single point. -/
def flattenFields : Bool → BoundList → List (CString × OrderedIntervalList) →
    Except Failure BoundList
  | _, builders, [] => .ok builders
  | equalityOnly, builders, (fieldName, oil) :: rest =>
      let front := oil.intervals.headD noInterval
      let back := oil.intervals.getLastD noInterval
      if equalityOnly then
        if isSinglePoint oil then
          flattenFields true (appendToAll fieldName front.start front.stop builders) rest
        else do
          let newBuilders ← multiplyBuilders fieldName oil.intervals builders
          flattenFields false newBuilders rest
      else flattenFields false (appendToAll fieldName front.start back.stop builders) rest

def flattenBounds (keyPattern : BSONObj) (indexBounds : IndexBounds) : Except Failure BoundList :=
  if indexBounds.fields.length ≠ keyPattern.length then .error .invariant
  else if indexBounds.fields.any fun oil => oil.intervals.length = 0 then .ok []
  else flattenFields true [([], [])] ((keyPattern.map Prod.fst).zip indexBounds.fields)

end ShardKeyPattern

structure Chunk where
  min : BSONObj
  max : BSONObj
  shardId : String
  lastmod : ChunkVersion

structure ShardAndChunkRange where
  range : ChunkRange
  shardId : String

/-- Ranges in the order of their upper bounds, and the highest version of every shard. -/
structure ChunkMapViews where
  chunkRangeMap : List ShardAndChunkRange
  shardVersions : List (String × ChunkVersion)

namespace ChunkManager

def trackShardVersion (epoch : OID) (chunk : Chunk) :
    List (String × ChunkVersion) → List (String × ChunkVersion)
  | [] =>
      let initial : ChunkVersion := ⟨0, epoch⟩
      [(chunk.shardId, if initial.combined < chunk.lastmod.combined then chunk.lastmod
        else initial)]
  | (shardId, version) :: rest =>
      if shardId = chunk.shardId then
        (shardId, if version.combined < chunk.lastmod.combined then chunk.lastmod
          else version) :: rest
      else (shardId, version) :: trackShardVersion epoch chunk rest

def trackChunk (epoch : OID) (chunk : Chunk) (views : ChunkMapViews) : ChunkMapViews :=
  { views with shardVersions := trackShardVersion epoch chunk views.shardVersions }

/-- A finished range goes to the end of the map, as chunks come in the order of their upper
bounds. -/
def insertRange (text : Rendering) (views : ChunkMapViews) (r : ShardAndChunkRange) :
    Except Failure ChunkMapViews :=
  let gap := views.chunkRangeMap.getLast?.filter fun prev =>
    woCompareNested prev.range.max r.range.min ≠ 0
  match gap with
  | some prev => .error (.status ⟨ErrorCodes.ConflictingOperationInProgress,
      "Gap or an overlap between ranges " ++ r.range.toString text ++ " and " ++
        prev.range.toString text⟩)
  | none =>
      if (views.shardVersions.lookup r.shardId).any ChunkVersion.isSet then
        .ok { views with chunkRangeMap := views.chunkRangeMap ++ [r] }
      else .error .invariant

/-- The loop over the chunks, with the range that the last one belongs to. -/
def constructFrom (text : Rendering) (epoch : OID) : ChunkMapViews → ShardAndChunkRange →
    List Chunk → Except Failure ChunkMapViews
  | views, current, [] => insertRange text views current
  | views, current, chunk :: rest =>
      if chunk.shardId = current.shardId then
        constructFrom text epoch (trackChunk epoch chunk views)
          { current with range := ⟨current.range.min, chunk.max⟩ } rest
      else do
        let views ← insertRange text views current
        constructFrom text epoch (trackChunk epoch chunk views)
          ⟨⟨chunk.min, chunk.max⟩, chunk.shardId⟩ rest

def checkAllElementsAreOfType (text : Rendering) (isType : BSONValue → Bool) (typeName : String)
    (o : BSONObj) : Except Failure Unit :=
  if o.all fun e => isType e.2 then .ok ()
  else .error (.status ⟨ErrorCodes.ConflictingOperationInProgress,
    "Not all elements of " ++ text.obj o ++ " are of type " ++ typeName⟩)

def isMinKey : BSONValue → Bool
  | .minKey => true
  | _ => false

def isMaxKey : BSONValue → Bool
  | .maxKey => true
  | _ => false

/-- The first range starts at the lowest key and the last one ends at the highest. -/
def checkCoversKeySpace (text : Rendering) (views : ChunkMapViews) : Except Failure Unit :=
  match views.chunkRangeMap.head?, views.chunkRangeMap.getLast? with
  | some first, some last => do
      checkAllElementsAreOfType text isMinKey "minKey" first.range.min
      checkAllElementsAreOfType text isMaxKey "maxKey" last.range.max
  | _, _ => .error .invariant

/-- The chunks are given in the order of the map they are kept in. -/
def constructChunkMapViews (text : Rendering) (epoch : OID) :
    List Chunk → Except Failure ChunkMapViews
  | [] => .error .invariant
  | first :: rest => do
      let views ← constructFrom text epoch (trackChunk epoch first ⟨[], []⟩)
        ⟨⟨first.min, first.max⟩, first.shardId⟩ rest
      checkCoversKeySpace text views
      return views

variable (views : ChunkMapViews)

/-- The position of the first range that ends after a key. -/
def upperBound (key : BSONObj) : ℕ :=
  views.chunkRangeMap.findIdx fun r => woCompareNested key r.range.max < 0

/-- Shards are collected until all of them are there. -/
def collectShards (shards : ℕ) : List ShardAndChunkRange → Finset String → Finset String
  | [], shardIds => shardIds
  | r :: rest, shardIds =>
      let shardIds := insert r.shardId shardIds
      if shardIds.card = shards then shardIds else collectShards shards rest shardIds

def getShardIdsForRange (min max : BSONObj) (shardIds : Finset String) :
    Except Failure (Finset String) :=
  let it := upperBound views min
  let last := upperBound views max
  -- The chunk range map must always cover the entire key space
  if it = views.chunkRangeMap.length then .error .invariant
  else
    let last := if last = views.chunkRangeMap.length then last else last + 1
    .ok (collectShards views.shardVersions.length ((views.chunkRangeMap.take last).drop it)
      shardIds)

/-- The loop over the ranges in `getShardIdsForQuery`. -/
def getShardIdsForRanges : ShardKeyPattern.BoundList → Finset String →
    Except Failure (Finset String)
  | [], shardIds => .ok shardIds
  | (min, max) :: rest, shardIds => do
      let shardIds ← getShardIdsForRange views min max shardIds
      if shardIds.card = views.shardVersions.length then .ok shardIds
      else getShardIdsForRanges rest shardIds

def getShardIdsForBounds (keyPattern : BSONObj) (bounds : IndexBounds) :
    Except Failure (Finset String) := do
  let ranges ← ShardKeyPattern.flattenBounds keyPattern bounds
  getShardIdsForRanges views ranges ∅

end ChunkManager
end MongoServer
