import MongoServer.Sharding.CollectionMetadata

/-!
A shard's active metadata of a collection, and the ranges it is receiving. Every receiving range
is pending in the active metadata. When newer metadata arrives, ranges that were received leave
the map, and so do ranges that chunks of the new metadata overlap.
-/
namespace MongoServer

namespace ChunkVersion

def UNSHARDED : ChunkVersion := ⟨0, ⟨List.replicate 12 0, rfl⟩⟩

def isWriteCompatibleWith (v other : ChunkVersion) : Bool :=
  v.epoch = other.epoch && other.majorVersion = v.majorVersion

end ChunkVersion

/-- A call does not return: an invariant does not hold, or a loop does not come to its end. -/
inductive Stop where
  | invariant
  | unfinished
  deriving DecidableEq

structure MetadataManager where
  activeMetadata : Option CollectionMetadata
  receivingChunks : RangeMap

namespace MetadataManager

def init : MetadataManager := ⟨none, .empty⟩

/-- Erases the ranges that start where given ones do; all of them must be there. -/
def eraseReceiving (receiving : RangeMap) : List (BSONObj × BSONObj) → Except Stop RangeMap
  | [] => .ok receiving
  | overlap :: rest =>
      if (receiving.find overlap.1).isSome then
        eraseReceiving (receiving.erase overlap.1) rest
      else .error .invariant

/-- The loop over the receiving ranges from a position, for at most as many rounds as given. -/
def resolveReceiving (chunks : RangeMap) : ℕ → RangeMap → ℕ → Except Stop RangeMap
  | 0, _, _ => .error .unfinished
  | n + 1, receiving, it =>
      match receiving.entries[it]? with
      | none => .ok receiving
      | some e =>
          if rangeMapContains chunks e.1 e.2.maxKey then
            -- received: the next range moves to this position
            resolveReceiving chunks n (receiving.erase e.1) it
          else if !rangeMapOverlaps chunks e.1 e.2.maxKey then
            resolveReceiving chunks n receiving (it + 1)
          else
            match eraseReceiving receiving (getRangeMapOverlap chunks e.1 e.2.maxKey) with
            | .ok receiving => resolveReceiving chunks n receiving 0
            | .error stop => .error stop

/-- Rounds that are enough for maps without overlaps. -/
def resolveRounds (receiving : RangeMap) : ℕ :=
  receiving.entries.length * (receiving.entries.length + 2) + receiving.entries.length + 1

def addPending (metadata : CollectionMetadata) :
    List (BSONObj × CachedChunkInfo) → Except Stop CollectionMetadata
  | [] => .ok metadata
  | e :: rest =>
      match metadata.clonePlusPending ⟨e.1, e.2.maxKey⟩ with
      | some metadata => addPending metadata rest
      | none => .error .invariant

variable (manager : MetadataManager)

def installNewer (remote : CollectionMetadata) : Except Stop MetadataManager := do
  let receiving ← resolveReceiving remote.chunksMap (resolveRounds manager.receivingChunks)
    manager.receivingChunks 0
  let metadata ← addPending remote receiving.entries
  return ⟨some metadata, receiving⟩

def refreshActiveMetadata (remoteMetadata : Option CollectionMetadata) :
    Except Stop MetadataManager :=
  match remoteMetadata, manager.activeMetadata with
  | none, none =>
      if manager.receivingChunks.isEmpty then .ok manager else .error .invariant
  | none, some _ => .ok ⟨none, .empty⟩
  | some remote, active =>
      if remote.collVersion.isWriteCompatibleWith .UNSHARDED ||
          remote.shardVersion.isWriteCompatibleWith .UNSHARDED then .error .invariant
      else
        match active with
        | none =>
            if manager.receivingChunks.isEmpty then .ok ⟨some remote, manager.receivingChunks⟩
            else .error .invariant
        | some active =>
            if active.collVersion.epoch ≠ remote.collVersion.epoch then .ok ⟨some remote, .empty⟩
            else if remote.collVersion.combined ≤ active.collVersion.combined then .ok manager
            else manager.installNewer remote

def beginReceive (range : ChunkRange) : Except Stop MetadataManager :=
  match manager.activeMetadata with
  | none => .error .invariant
  | some active =>
      match eraseReceiving manager.receivingChunks
          (getRangeMapOverlap manager.receivingChunks range.min range.max) with
      | .error stop => .error stop
      | .ok receiving =>
          match active.clonePlusPending range with
          | none => .error .invariant
          | some metadata =>
              .ok ⟨some metadata, receiving.emplace range.min ⟨range.max, ChunkVersion.IGNORED⟩⟩

def forgetReceive (range : ChunkRange) : Except Stop MetadataManager :=
  match manager.receivingChunks.find range.min, manager.activeMetadata with
  | some e, some active =>
      if woCompareNested e.2.maxKey range.max = 0 then
        match active.cloneMinusPending range with
        | none => .error .invariant
        | some metadata => .ok ⟨some metadata, manager.receivingChunks.erase range.min⟩
      else .error .invariant
  | _, _ => .error .invariant

inductive Call where
  | refreshActiveMetadata (remoteMetadata : Option CollectionMetadata)
  | beginReceive (range : ChunkRange)
  | forgetReceive (range : ChunkRange)

def call : Call → Except Stop MetadataManager
  | .refreshActiveMetadata remoteMetadata => manager.refreshActiveMetadata remoteMetadata
  | .beginReceive range => manager.beginReceive range
  | .forgetReceive range => manager.forgetReceive range

def run (manager : MetadataManager) : List Call → Except Stop MetadataManager
  | [] => .ok manager
  | c :: rest =>
      match manager.call c with
      | .ok manager => run manager rest
      | .error stop => .error stop

end MetadataManager
end MongoServer
