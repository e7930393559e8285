import MongoServer.Bson.ObjectOrder
import MongoServer.Sharding.ShardKey
import Mathlib.Data.List.MinMax

/-!
Splitting, merging and migrating chunks in the catalog. Every operation finds the highest
version of the collection, checks its request, and hands a list of updates to `applyOps`,
which applies all of them or none. The collection of chunks has three unique indexes, and
updates find documents by an id that is made from the namespace and the lower bound.
-/
namespace MongoServer

structure ChunkRange where
  min : BSONObj
  max : BSONObj

namespace ChunkRange
variable (range : ChunkRange)

def containsKey (key : BSONObj) : Bool :=
  woCompareNested range.min key ≤ 0 ∧ woCompareNested key range.max < 0

def toString (text : Rendering) : String :=
  "[" ++ text.obj range.min ++ ", " ++ text.obj range.max ++ ")"

end ChunkRange

theorem containsKey_iff {range : ChunkRange} {key : BSONObj} : range.containsKey key = true ↔
    range.min.rank ≤ key.rank ∧ key.rank < range.max.rank := by
  unfold ChunkRange.containsKey
  rw [decide_eq_true_iff, woCompareNested_le_iff, woCompareNested_lt_iff]

namespace ChunkVersion

def incMinor (v : ChunkVersion) : ChunkVersion := { v with combined := v.combined + 1 }

def isSet (v : ChunkVersion) : Bool := 0 < v.combined

def toString (text : Rendering) (v : ChunkVersion) : String :=
  v.majorVersion.toNat.repr ++ "|" ++ v.minorVersion.toNat.repr ++ "||" ++ text.oid v.epoch

end ChunkVersion

/-- A document of the collection of chunks. -/
structure ChunkDoc where
  id : String
  ns : String
  min : BSONObj
  max : BSONObj
  shard : String
  version : ChunkVersion

def ChunkType.genID (text : Rendering) (ns : String) (o : BSONObj) : String :=
  o.foldl (fun buf e => buf ++ text.name e.1 ++ "_" ++ text.value e.2) (ns ++ "-")

namespace ChunkType
open List
variable {text : Rendering} {l r : BSONObj}

/-- Where the texts of two keys differ first, neither goes on with the other, or the keys end. -/
def TextsPart (text : Rendering) : BSONObj → BSONObj → Prop
  | (_, v) :: l, (_, w) :: r =>
      if text.value v = text.value w then TextsPart text l r
      else l = [] ∧ r = [] ∨ ¬(text.value v).toList <+: (text.value w).toList ∧
        ¬(text.value w).toList <+: (text.value v).toList
  | _, _ => False

theorem toList_genID (text : Rendering) (ns : String) (o : BSONObj) :
    (genID text ns o).toList = (ns ++ "-").toList ++
      o.flatMap fun e => (text.name e.1).toList ++ '_' :: (text.value e.2).toList := by
  unfold genID
  generalize ns ++ "-" = buf
  induction o generalizing buf with
  | nil => simp
  | cons e o ih => simp [ih]

/-- Bytes as text, one character a byte. -/
def ofBytes (s : List UInt8) : String := .ofList (s.map fun b => Char.ofNat b.toNat)

/-- `BSONElement::toString` of a whole value; `other` prints numbers, dates, ids, binary data and
values with values inside. -/
def toString (other : BSONValue → String) : BSONValue → String
  | .regEx pattern flags => "/" ++ ofBytes pattern.bytes ++ "/" ++ ofBytes flags.bytes
  | .bool b => if b then "true" else "false"
  | .undefined => "undefined"
  | .jstNULL => "null"
  | .maxKey => "MaxKey"
  | .minKey => "MinKey"
  | .code c => ofBytes c
  | .symbol s | .string s => "\"" ++ ofBytes s ++ "\""
  | v => other v

def printing (other : BSONValue → String) : Rendering :=
  ⟨fun _ => "", fun _ => "", fun n => ofBytes n.bytes, toString other, fun _ => ""⟩

end ChunkType

def ChunkDoc.new (text : Rendering) (ns : String) (min max : BSONObj) (shard : String)
    (version : ChunkVersion) : ChunkDoc :=
  ⟨ChunkType.genID text ns min, ns, min, max, shard, version⟩

section ApplyOps

/-- An update of the document with the id of the new one, or a deletion. -/
inductive ChunkOp where
  | update (o : ChunkDoc)
  | delete (id : String)

/-- The collection must hold a chunk with these bounds, epoch and shard. -/
structure PreCondition where
  ns : String
  min : BSONObj
  max : BSONObj
  epoch : OID
  shard : String

def ChunkDoc.hasBounds (ns : String) (min max : BSONObj) (doc : ChunkDoc) : Bool :=
  doc.ns = ns ∧ woCompareNested doc.min min = 0 ∧ woCompareNested doc.max max = 0

/-- Two documents share a key of one of the unique indexes on namespace and lower bound, on
namespace, shard and lower bound, and on namespace and version. -/
def ChunkDoc.duplicates (a b : ChunkDoc) : Bool :=
  a.ns = b.ns ∧ (woCompareNested a.min b.min = 0 ∨
    (a.shard = b.shard ∧ woCompareNested a.min b.min = 0) ∨
    a.version.combined = b.version.combined)

def duplicateKey : Failure := .status ⟨ErrorCodes.UnknownError, "E11000 duplicate key error"⟩

/-- The document with the highest version of those that match a query. -/
def findNewest (query : ChunkDoc → Bool) (docs : List ChunkDoc) : Option ChunkDoc :=
  (docs.filter query).argmax fun doc => doc.version.combined.toNat

/-- A document that is not found is inserted, as updates of `applyOps` always upsert. -/
def applyOperation (docs : List ChunkDoc) : ChunkOp → Except Failure (List ChunkDoc)
  | .update o =>
      let others := docs.filter fun doc => doc.id ≠ o.id
      if others.any fun doc => doc.duplicates o then .error duplicateKey
      else .ok (o :: others)
  | .delete id => .ok (docs.filter fun doc => doc.id ≠ id)

def PreCondition.check (docs : List ChunkDoc) (preCond : PreCondition) : Bool :=
  match findNewest (ChunkDoc.hasBounds preCond.ns preCond.min preCond.max) docs with
  | some doc => doc.version.epoch = preCond.epoch ∧ doc.shard = preCond.shard
  | none => false

/-- All operations, or none. -/
def applyOps (ops : List ChunkOp) (preConds : List PreCondition) (docs : List ChunkDoc) :
    Except Failure Unit × List ChunkDoc :=
  if preConds.all (PreCondition.check docs) then
    match ops.foldlM applyOperation docs with
    | .ok docs' => (.ok (), docs')
    | .error failure => (.error failure, docs)
  else (.error (.status ⟨ErrorCodes.BadValue, "preCondition failed"⟩), docs)

def parseRange (text : Rendering) (doc : ChunkDoc) : Except Status ChunkRange :=
  if doc.min.isEmpty then .error ⟨ErrorCodes.BadValue, "The min key cannot be empty"⟩
  else if doc.max.isEmpty then .error ⟨ErrorCodes.BadValue, "The max key cannot be empty"⟩
  else if 0 ≤ woCompareNested doc.min doc.max then
    .error ⟨ErrorCodes.FailedToParse,
      "min: " ++ text.obj doc.min ++ " should be less than max: " ++ text.obj doc.max⟩
  else .ok ⟨doc.min, doc.max⟩

/-- A failure is taken for a lost answer if the newest version is there. -/
def applyChunkOpsDeprecated (text : Rendering) (ops : List ChunkOp) (preConds : List PreCondition)
    (ns : String) (lastChunkVersion : ChunkVersion) (docs : List ChunkDoc) :
    Except Failure Unit × List ChunkDoc :=
  match applyOps ops preConds docs with
  | (.ok (), docs') => (.ok (), docs')
  | (.error (.status status), docs') =>
      match docs'.find? fun doc => doc.ns = ns ∧ doc.version = lastChunkVersion with
      | some doc =>
          match parseRange text doc with
          | .ok _ => (.ok (), docs')
          | .error chunkStatus => (.error (.status ⟨status.code,
              "getChunks function failed, unable to validate chunk operation metadata: " ++
                chunkStatus.reason ++ ". applyChunkOpsDeprecated failed to get confirmation " ++
                "of commit. Unable to save chunk ops."⟩), docs')
      | none => (.error (.status ⟨status.code, "chunk operation commit failed: version " ++
          lastChunkVersion.toString text ++ " doesn't exist in namespace: " ++ ns ++
          ". Unable to save chunk ops."⟩), docs')
  | (.error .invariant, docs') => (.error .invariant, docs')

end ApplyOps

/-- The version of the collection, if its epoch is the requested one. -/
def findCollVersion (docs : List ChunkDoc) (ns : String) (requestEpoch : OID) :
    Except Failure ChunkVersion :=
  match findNewest (fun doc => doc.ns = ns) docs with
  | none => .error (.status ⟨ErrorCodes.IllegalOperation,
      "collection does not exist, isn't sharded, or has no chunks"⟩)
  | some doc =>
      if doc.version.epoch ≠ requestEpoch then
        .error (.status ⟨ErrorCodes.StaleEpoch,
          "epoch of chunk does not match epoch of request. This most likely means " ++
            "that the collection was dropped and re-created."⟩)
      else .ok doc.version

/-- What the parameters of a chunk must satisfy to be set. -/
def setBounds (min max : BSONObj) (version : ChunkVersion) : Except Failure Unit :=
  if min.isEmpty ∨ max.isEmpty ∨ !version.isSet then .error .invariant else .ok ()

section Split
variable (text : Rendering)

/-- The checks of one end of a new chunk. -/
def checkSplitPoint (range : ChunkRange) (startKey endKey : BSONObj) : Except Status Unit :=
  if woCompareNested endKey range.max ≠ 0 ∧ !range.containsKey endKey then
    .error ⟨ErrorCodes.InvalidOptions, "Split key " ++ text.obj endKey ++
      " not contained within chunk " ++ range.toString text⟩
  else if woCompareNested endKey startKey < 0 then
    .error ⟨ErrorCodes.InvalidOptions,
      "Split keys must be specified in strictly increasing order. Key " ++ text.obj endKey ++
        " was specified after " ++ text.obj startKey ++ "."⟩
  else if woCompareNested endKey startKey = 0 then
    .error ⟨ErrorCodes.InvalidOptions, "Split on lower bound of chunk " ++
      ChunkRange.toString ⟨startKey, endKey⟩ text ++ "is not allowed"⟩
  else do
    ShardKeyPattern.checkShardKeySize text endKey
    ShardKeyPattern.checkShardKeyIsValidForMetadataStorage text endKey

/-- The loop over the ends of the new chunks, with the highest version so far. -/
def newChunks (ns : String) (range : ChunkRange) (shardName : String) :
    List BSONObj → BSONObj → ChunkVersion → Except Failure (List ChunkDoc × ChunkVersion)
  | [], _, currentMaxVersion => .ok ([], currentMaxVersion)
  | endKey :: newChunkBounds, startKey, currentMaxVersion => do
      (checkSplitPoint text range startKey endKey).mapError Failure.status
      let version := currentMaxVersion.incMinor
      setBounds startKey endKey version
      let (chunks, last) ← newChunks ns range shardName newChunkBounds endKey version
      return (ChunkDoc.new text ns startKey endKey shardName version :: chunks, last)

/-- The updates, the precondition and the last version of a split. -/
def splitOps (docs : List ChunkDoc) (ns : String) (requestEpoch : OID) (range : ChunkRange)
    (splitPoints : List BSONObj) (shardName : String) :
    Except Failure (List ChunkDoc × ChunkVersion) := do
  let collVersion ← findCollVersion docs ns requestEpoch
  newChunks text ns range shardName (splitPoints ++ [range.max]) range.min collVersion

def commitChunkSplit (docs : List ChunkDoc) (ns : String) (requestEpoch : OID) (range : ChunkRange)
    (splitPoints : List BSONObj) (shardName : String) : Except Failure Unit × List ChunkDoc :=
  match splitOps text docs ns requestEpoch range splitPoints shardName with
  | .error failure => (.error failure, docs)
  | .ok (chunks, currentMaxVersion) =>
      applyChunkOpsDeprecated text (chunks.map .update)
        [⟨ns, range.min, range.max, requestEpoch, shardName⟩] ns currentMaxVersion docs

end Split

section Merge
variable (text : Rendering)

def chunksToMerge : BSONObj → List BSONObj → Except Failure (List ChunkRange)
  | _, [] => .ok []
  | min, boundary :: boundaries =>
      if woCompareNested boundary min ≤ 0 then
        .error (.status ⟨ErrorCodes.InvalidOptions,
          "Chunk boundaries must be specified in strictly increasing order. Boundary " ++
            text.obj boundary ++ " was specified after " ++ text.obj min ++ "."⟩)
      else if boundary.isEmpty then .error .invariant
      else do
        let chunks ← chunksToMerge boundary boundaries
        return ⟨min, boundary⟩ :: chunks

/-- The first chunk grows, and the other chunks are deleted. -/
def buildMergeChunksApplyOpsUpdates (ns shardName : String) (first : ChunkRange)
    (rest : List ChunkRange) (mergeVersion : ChunkVersion) : List ChunkOp :=
  .update (ChunkDoc.new text ns first.min ((rest.getLast?.getD first).max) shardName
    mergeVersion) ::
  rest.map fun chunk => .delete (ChunkType.genID text ns chunk.min)

def buildMergeChunksApplyOpsPrecond (ns shardName : String) (chunks : List ChunkRange)
    (collVersion : ChunkVersion) : List PreCondition :=
  chunks.map fun chunk => ⟨ns, chunk.min, chunk.max, collVersion.epoch, shardName⟩

/-- The ranges to merge. The first of no ranges is not there. -/
def checkMerge (ns : String) (first : BSONObj) (boundaries : List BSONObj) (shardName : String) :
    Except Failure (ChunkRange × List ChunkRange) :=
  if first.isEmpty ∨ ns.isEmpty ∨ shardName.isEmpty then .error .invariant
  else do
    match ← chunksToMerge text first boundaries with
    | [] => .error .invariant
    | chunk :: chunks => return (chunk, chunks)

/-- The ranges to merge, and the version of the collection, which is then increased. -/
def mergeOps (docs : List ChunkDoc) (ns : String) (requestEpoch : OID)
    (chunkBoundaries : List BSONObj) (shardName : String) :
    Except Failure (ChunkRange × List ChunkRange × ChunkVersion) :=
  match chunkBoundaries with
  | [] => .error .invariant
  | first :: boundaries => do
      let collVersion ← findCollVersion docs ns requestEpoch
      let (chunk, chunks) ← checkMerge text ns first boundaries shardName
      if collVersion.incMinor.isSet then return (chunk, chunks, collVersion)
      else .error .invariant

def commitChunkMerge (docs : List ChunkDoc) (ns : String) (requestEpoch : OID)
    (chunkBoundaries : List BSONObj) (shardName : String) : Except Failure Unit × List ChunkDoc :=
  match mergeOps text docs ns requestEpoch chunkBoundaries shardName with
  | .error failure => (.error failure, docs)
  | .ok (chunk, chunks, collVersion) =>
      let mergeVersion := collVersion.incMinor
      applyChunkOpsDeprecated text
        (buildMergeChunksApplyOpsUpdates text ns shardName chunk chunks mergeVersion)
        (buildMergeChunksApplyOpsPrecond ns shardName (chunk :: chunks) collVersion)
        ns mergeVersion docs

end Merge

section Migration
variable (text : Rendering) (docs : List ChunkDoc) (ns : String) (migratedChunk : ChunkRange)
  (controlChunk : Option ChunkRange)

/-- The collection was not dropped and created again since the migration began. -/
def checkCollectionVersionEpoch (aChunk : ChunkRange)
    (collectionEpoch : OID) : Except Status Unit :=
  match docs.find? fun doc => doc.ns = ns with
  | none => .error ⟨ErrorCodes.IncompatibleShardingMetadata,
      "Could not find any chunks for collection '" ++ ns ++
        "'. The collection has been dropped since the migration began. Aborting" ++
        " migration commit for chunk (" ++ aChunk.toString text ++ ")."⟩
  | some doc => do
      let _ ← parseRange text doc
      if doc.version.epoch = collectionEpoch then return
      else .error ⟨ErrorCodes.StaleEpoch, "The collection '" ++ ns ++
        "' has been dropped and recreated since the migration began." ++
        " The config server's collection version epoch is now '" ++
        text.oid doc.version.epoch ++ "', but the shard's is " ++ text.oid collectionEpoch ++
        "'. Aborting migration commit for chunk (" ++ aChunk.toString text ++ ")."⟩

def checkChunkIsOnShard (chunk : ChunkRange) (shard : String) : Except Status Unit :=
  if docs.any fun doc => doc.hasBounds ns chunk.min chunk.max ∧ doc.shard = shard then .ok ()
  else .error ⟨40165, "Could not find the chunk (\x7b ns: \"" ++ ns ++ "\", min: " ++
    text.obj chunk.min ++ ", max: " ++ text.obj chunk.max ++ ", shard: \"" ++ shard ++
    "\" \x7d) on the shard. Cannot execute the migration commit with invalid chunks."⟩

/-- The chunk moves with a new major version, and the control chunk follows it. -/
def makeCommitChunkApplyOpsCommand (fromShard toShard : String) (version : ChunkVersion) :
    List ChunkOp :=
  .update (ChunkDoc.new text ns migratedChunk.min migratedChunk.max toShard
    (.ofParts (version.majorVersion + 1) 0 version.epoch)) ::
  (controlChunk.toList.map fun chunk =>
    .update (ChunkDoc.new text ns chunk.min chunk.max fromShard
      (.ofParts (version.majorVersion + 1) 1 version.epoch)))

/-- The version from which those of a migration are made. -/
def findMaxVersion : Except Failure ChunkVersion :=
  match findNewest (fun doc => doc.ns = ns) docs with
  | none => .error (.status ⟨40164, "Tried to find max chunk version for collection '" ++ ns ++
      ", but found no chunks"⟩)
  | some newest =>
      if (ChunkVersion.ofParts (newest.version.majorVersion + 1) 0 newest.version.epoch).isSet then
        .ok newest.version
      else .error .invariant

def migrationOps (collectionEpoch : OID) (fromShard toShard : String) :
    Except Failure (List ChunkOp) := do
  (checkCollectionVersionEpoch text docs ns migratedChunk collectionEpoch).mapError .status
  ((migratedChunk :: controlChunk.toList).forM fun chunk =>
    checkChunkIsOnShard text docs ns chunk fromShard).mapError .status
  let currentMaxVersion ← findMaxVersion docs ns
  return makeCommitChunkApplyOpsCommand text ns migratedChunk controlChunk fromShard toShard
    currentMaxVersion

def commitChunkMigration (collectionEpoch : OID) (fromShard toShard : String) :
    Except Failure Unit × List ChunkDoc :=
  match migrationOps text docs ns migratedChunk controlChunk collectionEpoch fromShard toShard with
  | .error failure => (.error failure, docs)
  | .ok ops => applyOps ops [] docs

end Migration

end MongoServer
