import Mathlib.Data.List.Sort
import MongoServer.Base.NamespaceString
import MongoServer.Sharding.WriteOp

/-!
A client's batch of writes at the router: the writes that are ready are targeted and grouped
by endpoint into batches, and the responses are handed back to the writes. An ordered batch
is sent to one endpoint at a time, or holds a single write.
-/
namespace MongoServer

structure BatchedCommandRequest where
  nss : NamespaceString
  batchType : BatchType
  items : List BatchItem
  items_opType : ∀ item ∈ items, item.opType = batchType
  ordered : Bool

def BatchedCommandRequest.isInsertIndexRequest (request : BatchedCommandRequest) : Bool :=
  request.batchType = .insert ∧ request.nss.isSystemDotIndexes

structure BatchedCommandResponse where
  ok : Bool
  errCode : ℤ
  errMessage : String
  errDetails : List WriteErrorDetail

structure TargetedWriteBatch where
  endpoint : ShardEndpoint
  writes : List TargetedWrite
  deriving DecidableEq

/-- A batch under construction with its size; both maps of the source have the same keys. -/
structure BatchEntry where
  batch : TargetedWriteBatch
  numOps : ℕ
  sizeBytes : ℕ

/-- Sorted by `EndpointComp`. -/
abbrev TargetedBatchMap := List BatchEntry

def EndpointComp (endpointA endpointB : ShardEndpoint) : Bool :=
  compareEndpoints endpointA endpointB < 0

namespace TargetedBatchMap

/-- A key is found where neither is less than the other. -/
def isAt (endpoint : ShardEndpoint) (entry : BatchEntry) : Bool :=
  !EndpointComp entry.batch.endpoint endpoint && !EndpointComp endpoint entry.batch.endpoint

def find (batchMap : TargetedBatchMap) (endpoint : ShardEndpoint) : Option BatchEntry :=
  batchMap.find? (isAt endpoint)

def insert (entry : BatchEntry) : TargetedBatchMap → TargetedBatchMap
  | [] => [entry]
  | first :: rest =>
      if EndpointComp entry.batch.endpoint first.batch.endpoint then entry :: first :: rest
      else first :: insert entry rest

def BatchEntry.addWrite (entry : BatchEntry) (writeSizeBytes : ℕ) (write : TargetedWrite) :
    BatchEntry :=
  ⟨⟨entry.batch.endpoint, entry.batch.writes ++ [write]⟩, entry.numOps + 1,
    entry.sizeBytes + writeSizeBytes⟩

def addToFound (writeSizeBytes : ℕ) (write : TargetedWrite) :
    TargetedBatchMap → Option TargetedBatchMap
  | [] => none
  | entry :: rest =>
      if isAt write.endpoint entry then
        some (BatchEntry.addWrite entry writeSizeBytes write :: rest)
      else (addToFound writeSizeBytes write rest).map (entry :: ·)

/-- Where no batch is found the write starts a new one. -/
def addWrite (writeSizeBytes : ℕ) (batchMap : TargetedBatchMap) (write : TargetedWrite) :
    TargetedBatchMap :=
  match addToFound writeSizeBytes write batchMap with
  | some found => found
  | none => insert ⟨⟨write.endpoint, [write]⟩, 1, writeSizeBytes⟩ batchMap

end TargetedBatchMap

def isNewBatchRequired (writes : List TargetedWrite) (batchMap : TargetedBatchMap) : Bool :=
  writes.any fun write => (batchMap.find write.endpoint).isNone

def BSONObjMaxUserSize : ℕ := 16 * 1024 * 1024

def BSONObjMaxInternalSize : ℕ := BSONObjMaxUserSize + 16 * 1024

def kMaxWriteBatchSize : ℕ := 1000

def kEstUpdateOverheadBytes : ℕ := (BSONObjMaxInternalSize - BSONObjMaxUserSize) / 100

def kEstDeleteOverheadBytes : ℕ := (BSONObjMaxInternalSize - BSONObjMaxUserSize) / 100

def getWriteSizeBytes : BatchItem → ℕ
  | .insert document => document.objsize
  | .update document =>
      document.query.objsize + document.updateExpr.objsize +
        (document.collation.map BSONObj.objsize).getD 0 + kEstUpdateOverheadBytes
  | .delete document =>
      document.query.objsize + (document.collation.map BSONObj.objsize).getD 0 +
        kEstDeleteOverheadBytes

/-- The first write of a batch cannot be too big. -/
def wouldMakeBatchesTooBig (writes : List TargetedWrite) (writeSizeBytes : ℕ)
    (batchMap : TargetedBatchMap) : Bool :=
  writes.any fun write =>
    match batchMap.find write.endpoint with
    | none => false
    | some entry =>
        kMaxWriteBatchSize ≤ entry.numOps ∨ BSONObjMaxUserSize < entry.sizeBytes + writeSizeBytes

def TargetedBatchMap.writes (batchMap : TargetedBatchMap) : List TargetedWrite :=
  batchMap.flatMap fun entry => entry.batch.writes

def cancelBatches (why : WriteErrorDetail) (writeOps : List WriteOp)
    (batchMap : TargetedBatchMap) : List WriteOp :=
  batchMap.writes.foldl
    (fun ops write => ops.modify write.writeOpRef.1 fun op => op.cancelWrites (some why)) writeOps

def buildTargetError (status : Status) : WriteErrorDetail := ⟨status.code, 0, status.reason⟩

structure BatchWriteOp where
  clientRequest : BatchedCommandRequest
  writeOps : List WriteOp

/-- What targeting one write of a batch leads to. -/
inductive TargetStep where
  | abort (status : Status)
  | stop (op : WriteOp) (batchMap : TargetedBatchMap)
  | next (op : WriteOp) (batchMap : TargetedBatchMap)

/-- A write whose targeting failed, when errors are recorded. -/
def recordTargetError (ordered : Bool) (error : WriteErrorDetail) (op : WriteOp)
    (batchMap : TargetedBatchMap) : TargetStep :=
  if !ordered then .next (op.setOpError error) batchMap
  else if batchMap.isEmpty then .stop (op.setOpError error) batchMap
  -- what is there is sent, as it may fail before this write
  else .stop (op.cancelWrites (some error)) batchMap

def addTargeted (ordered : Bool) (writes : List TargetedWrite) (op : WriteOp)
    (batchMap : TargetedBatchMap) : TargetStep :=
  let writeSizeBytes := getWriteSizeBytes op.item
  if ordered && !batchMap.isEmpty && isNewBatchRequired writes batchMap then
    .stop (op.cancelWrites none) batchMap
  else if wouldMakeBatchesTooBig writes writeSizeBytes batchMap then
    .stop (op.cancelWrites none) batchMap
  else
    let batchMap := writes.foldl (TargetedBatchMap.addWrite writeSizeBytes) batchMap
    -- later writes cannot be ordered behind more than one endpoint
    if ordered && decide (1 < batchMap.length) then .stop op batchMap else .next op batchMap

structure TargetResult where
  status : Option Status
  writeOps : List WriteOp
  batches : List TargetedWriteBatch

namespace BatchWriteOp
variable (self : BatchWriteOp) (targetedBatch : TargetedWriteBatch) (error : WriteErrorDetail)

def initClientRequest (request : BatchedCommandRequest) : BatchWriteOp :=
  ⟨request, request.items.mapIdx WriteOp.new⟩

def targetOp (targeter : NSTargeter) (recordTargetErrors : Bool) (op : WriteOp)
    (batchMap : TargetedBatchMap) : TargetStep :=
  if op.state ≠ .ready then .next op batchMap
  else
    match op.targetWrites targeter self.clientRequest.isInsertIndexRequest with
    | .error status =>
        if !recordTargetErrors then .abort status
        else recordTargetError self.clientRequest.ordered (buildTargetError status) op batchMap
    | .ok (writes, op) => addTargeted self.clientRequest.ordered writes op batchMap

/-- The loop over the writes: those before the current one, it and those after it. -/
def targetOps (targeter : NSTargeter) (recordTargetErrors : Bool) :
    List WriteOp → List WriteOp → TargetedBatchMap → TargetResult
  | before, [], batchMap => ⟨none, before, batchMap.map BatchEntry.batch⟩
  | before, op :: after, batchMap =>
      match self.targetOp targeter recordTargetErrors op batchMap with
      | .abort status =>
          ⟨some status, cancelBatches (buildTargetError status) before batchMap ++ op :: after, []⟩
      | .stop op batchMap => ⟨none, before ++ op :: after, batchMap.map BatchEntry.batch⟩
      | .next op batchMap => targetOps targeter recordTargetErrors (before ++ [op]) after batchMap

def targetBatch (targeter : NSTargeter) (recordTargetErrors : Bool) : TargetResult :=
  self.targetOps targeter recordTargetErrors [] self.writeOps []

/-- The request for one shard: the items, and the version the shard is to check. -/
structure ShardRequest where
  items : List BatchItem
  ordered : Bool
  shardVersion : ChunkVersion

def buildBatchRequest : ShardRequest where
  items := targetedBatch.writes.filterMap fun write =>
    self.clientRequest.items[write.writeOpRef.1]?
  ordered := self.clientRequest.ordered
  shardVersion := targetedBatch.endpoint.shardVersion

/-- The error for the write at an index, and the errors after it. -/
def takeError (index : ℕ) : List WriteErrorDetail → Option WriteErrorDetail × List WriteErrorDetail
  | [] => (none, [])
  | error :: rest => if error.index = index then (some error, rest) else (none, error :: rest)

/-- One write of a batch that was answered. -/
def noteWrite (ordered : Bool) (write : TargetedWrite) (writeError lastError : Option WriteErrorDetail)
    (op : WriteOp) : Option WriteOp :=
  match writeError with
  | some error => op.noteWriteError write error
  | none =>
      if ordered && lastError.isSome then some (op.cancelWrites lastError)
      else op.noteWriteComplete write

def noteWrites (ordered : Bool) : List TargetedWrite → ℕ → List WriteErrorDetail →
    Option WriteErrorDetail → List WriteOp → Option (List WriteOp)
  | [], _, _, _, writeOps => some writeOps
  | write :: rest, index, itemErrors, lastError, writeOps => do
      let (writeError, itemErrors) := takeError index itemErrors
      let op ← writeOps[write.writeOpRef.1]?
      let op ← noteWrite ordered write writeError lastError op
      noteWrites ordered rest (index + 1) itemErrors (writeError.or lastError)
        (writeOps.set write.writeOpRef.1 op)

/-- A response with errors by item. -/
def noteItemErrors (errDetails : List WriteErrorDetail) :
    Option BatchWriteOp := do
  let itemErrors := errDetails.insertionSort fun errorA errorB => errorA.index ≤ errorB.index
  let writeOps ← noteWrites self.clientRequest.ordered targetedBatch.writes 0 itemErrors none
    self.writeOps
  return { self with writeOps := writeOps }

def toWriteErrors (ordered : Bool) (numWrites : ℕ) : List WriteErrorDetail :=
  (List.range (if ordered then 1 else numWrites)).map fun i : ℕ => { error with index := i }

def noteBatchError : Option BatchWriteOp :=
  self.noteItemErrors targetedBatch
    (toWriteErrors error self.clientRequest.ordered targetedBatch.writes.length)

def noteBatchResponse (response : BatchedCommandResponse) : Option BatchWriteOp :=
  if response.ok then self.noteItemErrors targetedBatch response.errDetails
  else self.noteBatchError targetedBatch ⟨response.errCode, 0, response.errMessage⟩

def isUnfinished (op : WriteOp) : Bool := op.state = .ready ∨ op.state = .pending

def abortOps (ordered : Bool) (error : WriteErrorDetail) : List WriteOp → List WriteOp
  | [] => []
  | op :: rest =>
      if isUnfinished op then
        if ordered then op.setOpError error :: rest
        else op.setOpError error :: abortOps ordered error rest
      else op :: abortOps ordered error rest

def abortBatch : BatchWriteOp :=
  { self with writeOps := abortOps self.clientRequest.ordered error self.writeOps }

def isFinishedFrom (ordered : Bool) : List WriteOp → Bool
  | [] => true
  | op :: rest =>
      if isUnfinished op then false
      else if ordered && op.state = .error then true
      else isFinishedFrom ordered rest

def isFinished : Bool := isFinishedFrom self.clientRequest.ordered self.writeOps

def numWriteOpsIn (state : WriteOpState) : ℕ :=
  self.writeOps.countP fun op => op.state = state

end BatchWriteOp
end MongoServer
