import MongoServer.Bson.FieldRef
import MongoServer.Transition.Interleaving

/-!
How a secondary applies the oplog: entries are taken from the network queue in batches, every
batch is dealt out to writer threads by hashes, and each writer applies what it was given, inserts
in groups where it can.
-/
namespace MongoServer

/-- What stops the server, or the thread, while it applies the oplog. -/
inductive SyncTailError where
  /-- An oplog version other than the known one. -/
  | fassert18820
  /-- A namespace without a dot. -/
  | massert16886
  /-- A value that has to be an object, or an `int`, is not one. -/
  | wrongType
  deriving DecidableEq

/-- The string up to its first NUL, and nothing if the value is no string. -/
def BSONValue.valuestrsafe : BSONValue → List UInt8
  | .string s => s.takeWhile (· ≠ 0)
  | _ => []

/-- The seconds of a timestamp, in milliseconds. -/
def BSONValue.timestampTime : BSONValue → ℕ
  | .bsonTimestamp t => t.toNat / 2 ^ 32 * 1000
  | _ => 0

namespace BSONValue

/-- The `_id` of an embedded object; the names in an array are positions. -/
def idField : BSONValue → Except SyncTailError (Option BSONValue)
  | .object fields => .ok ((fields.find? fun e => e.1.bytes = [0x5f, 0x69, 0x64]).map Prod.snd)
  | .array _ => .ok none
  | _ => .error .wrongType

def embeddedSize : BSONValue → Except SyncTailError ℕ
  | .object fields => .ok (BSONValue.object fields).valuesize
  | .array elems => .ok (BSONValue.array elems).valuesize
  | _ => .error .wrongType

end BSONValue

/-- An operation and the fields that were found in it; `none` for a field it does not have. -/
structure OplogEntry where
  raw : BSONObj
  ns : List UInt8
  opType : List UInt8
  version : Option BSONValue
  o : Option BSONValue
  o2 : Option BSONValue
  ts : Option BSONValue
  isForCappedCollection : Bool

namespace OplogEntry

def kOplogVersion : ℤ := 2

/-- Reads one field of the operation. -/
def readField (entry : OplogEntry) (elem : CString × BSONValue) : OplogEntry :=
  if elem.1.bytes = [0x6e, 0x73] then { entry with ns := elem.2.valuestrsafe }
  else if elem.1.bytes = [0x6f, 0x70] then { entry with opType := elem.2.valuestrsafe }
  else if elem.1.bytes = [0x6f, 0x32] then { entry with o2 := some elem.2 }
  else if elem.1.bytes = [0x74, 0x73] then { entry with ts := some elem.2 }
  else if elem.1.bytes = [0x76] then { entry with version := some elem.2 }
  else if elem.1.bytes = [0x6f] then { entry with o := some elem.2 }
  else entry

def new (raw : BSONObj) : OplogEntry :=
  raw.foldl readField ⟨raw, [], [], none, none, none, none, false⟩

variable (entry : OplogEntry)

def isOfType (letter : UInt8) : Bool := entry.opType.head? = some letter

def isInsert : Bool := entry.isOfType 0x69

def isCommand : Bool := entry.isOfType 0x63

/-- A delete, an insert or an update, and no longer word that starts like them. -/
def isCrudOpType : Bool :=
  (entry.isOfType 0x64 || entry.isOfType 0x69 || entry.isOfType 0x75) && entry.opType.length = 1

def getVersion : Except SyncTailError ℤ :=
  match entry.version with
  | none => .ok 1
  | some (.number (.numberInt n)) => .ok n.toInt
  | some _ => .error .wrongType

def getIdElement : Except SyncTailError (Option BSONValue) :=
  match if entry.isOfType 0x75 then entry.o2 else entry.o with
  | some v => v.idField
  | none => .error .wrongType

def documentSize : Except SyncTailError ℕ :=
  match entry.o with
  | some v => v.embeddedSize
  | none => .error .wrongType

def nsToCollectionSubstring : Except SyncTailError (List UInt8) :=
  if FieldRef.dot ∈ entry.ns then .ok ((entry.ns.dropWhile (· ≠ FieldRef.dot)).drop 1)
  else .error .massert16886

def systemIndexes : List UInt8 :=
  [0x73, 0x79, 0x73, 0x74, 0x65, 0x6d, 0x2e, 0x69, 0x6e, 0x64, 0x65, 0x78, 0x65, 0x73]

/-- An index build is an insert into this collection. -/
def isIndexBuild : Except SyncTailError Bool :=
  if entry.ns.isEmpty then .ok false
  else entry.nsToCollectionSubstring.map fun coll => coll = systemIndexes

/-- An operation that must be processed on its own; the empty one says that the queue is
drained. -/
def mustBeAlone : Except SyncTailError Bool :=
  if entry.raw.isEmpty || entry.isCommand then .ok true else entry.isIndexBuild

end OplogEntry

section Batching

structure BatchLimits where
  bytes : ℕ
  ops : ℕ
  slaveDelayLatestTimestamp : Option ℕ

structure OpQueue where
  batch : List OplogEntry
  bytes : ℕ
  mustShutdown : Bool

namespace OpQueue

def empty : OpQueue := ⟨[], 0, false⟩

def emplaceBack (ops : OpQueue) (op : BSONObj) : OpQueue :=
  { ops with batch := ops.batch ++ [.new op], bytes := ops.bytes + op.objsize }

end OpQueue

/-- The entry is past the delay of this member. -/
def BatchLimits.isTooRecent (limits : BatchLimits) (entry : OplogEntry) : Bool :=
  limits.slaveDelayLatestTimestamp.any fun latest =>
    latest < (entry.ts.map BSONValue.timestampTime).getD 0

/-- What is left of the network queue and what is in the batch, and whether the batch ends. The
batch that an operation does not go into is the one from before it was added. -/
def tryPopAndWaitForMore (limits : BatchLimits) (rsSyncApplyStop inShutdown : Bool)
    (networkQueue : List BSONObj) (ops : OpQueue) :
    Except SyncTailError (Bool × List BSONObj × OpQueue) :=
  match networkQueue with
  | [] =>
      if ops.batch.isEmpty && inShutdown then .ok (true, [], { ops with mustShutdown := true })
      else .ok (true, [], ops)
  | op :: rest =>
      if !ops.batch.isEmpty && limits.bytes < ops.bytes + op.objsize then
        .ok (true, networkQueue, ops)
      else if rsSyncApplyStop then .ok (true, networkQueue, ops)
      else
        let entry := OplogEntry.new op
        match entry.getVersion with
        | .error e => .error e
        | .ok curVersion =>
            if !op.isEmpty && curVersion ≠ OplogEntry.kOplogVersion then .error .fassert18820
            else if limits.isTooRecent entry then .ok (true, networkQueue, ops)
            else
              match entry.mustBeAlone with
              | .error e => .error e
              | .ok true =>
                  if ops.batch.isEmpty then .ok (true, rest, ops.emplaceBack op)
                  else .ok (true, networkQueue, ops)
              | .ok false =>
                  let ops := ops.emplaceBack op
                  .ok (limits.ops ≤ ops.batch.length, rest, ops)

/-- The thread that makes batches, the network queue it takes from, and what it has passed on. -/
structure OpQueueBatcher where
  networkQueue : List BSONObj
  ops : OpQueue
  batches : List (List OplogEntry)
  isDead : Bool
  /-- Everything that ever came in. -/
  arrived : List BSONObj

namespace OpQueueBatcher

def init : OpQueueBatcher := ⟨[], .empty, [], false, []⟩

/-- An operation arrives, or the thread calls once more, with the limits of that time. -/
inductive Event where
  | arrive (op : BSONObj)
  | pop (limits : BatchLimits) (rsSyncApplyStop inShutdown : Bool)

/-- The end of a batch; empty ones are not passed on, except to say that there are no more. -/
def finishBatch (batcher : OpQueueBatcher) : OpQueueBatcher :=
  if batcher.ops.batch.isEmpty && !batcher.ops.mustShutdown then { batcher with ops := .empty }
  else { batcher with
    ops := .empty, batches := batcher.batches ++ [batcher.ops.batch],
    isDead := batcher.ops.mustShutdown }

/-- There is no next state if the server stops, or the thread has ended. -/
def step (batcher : OpQueueBatcher) : Event → Option OpQueueBatcher
  | .arrive op => some { batcher with
      networkQueue := batcher.networkQueue ++ [op], arrived := batcher.arrived ++ [op] }
  | .pop limits rsSyncApplyStop inShutdown =>
      if batcher.isDead then none
      else
        match tryPopAndWaitForMore limits rsSyncApplyStop inShutdown batcher.networkQueue
            batcher.ops with
        | .error _ => none
        | .ok (ended, networkQueue, ops) =>
            let batcher := { batcher with networkQueue := networkQueue, ops := ops }
            some (if ended then batcher.finishBatch else batcher)

end OpQueueBatcher
end Batching

section Dealing

/-- What the writers depend on besides the operations: the storage engine, the collections, and
the hash functions. -/
structure ApplyEnvironment (Collator : Type*) where
  supportsDocLocking : Bool
  isCapped : List UInt8 → Bool
  collator : List UInt8 → Option Collator
  hashNs : List UInt8 → UInt32
  hashId : Option Collator → Option BSONValue → UInt64
  murmurHash3 : UInt64 → UInt32 → UInt32

/-- A pointer to an operation of the batch: what it points to, and its position. -/
abbrev OperationPtr := OplogEntry × ℕ

namespace ApplyEnvironment
variable {Collator : Type*} (env : ApplyEnvironment Collator)

/-- The `_id` counts where operations on one collection may run in parallel. -/
def writerHash (op : OplogEntry) : Except SyncTailError UInt32 :=
  if op.isCrudOpType && env.supportsDocLocking && !env.isCapped op.ns then
    op.getIdElement.map fun id =>
      env.murmurHash3 (env.hashId (env.collator op.ns) id) (env.hashNs op.ns)
  else .ok (env.hashNs op.ns)

/-- Marks inserts into capped collections. -/
def markCapped (op : OplogEntry) : OplogEntry :=
  if op.isCrudOpType && op.isInsert && env.isCapped op.ns then
    { op with isForCappedCollection := true }
  else op

def fillFrom : ℕ → List OplogEntry → List (List OperationPtr) →
    Except SyncTailError (List (List OperationPtr))
  | _, [], writerVectors => .ok writerVectors
  | i, op :: rest, writerVectors =>
      match env.writerHash op with
      | .error e => .error e
      | .ok hash => fillFrom (i + 1) rest (writerVectors.modify (hash.toNat % writerVectors.length)
          (· ++ [(env.markCapped op, i)]))

def fillWriterVectors (numWriters : ℕ) (ops : List OplogEntry) :
    Except SyncTailError (List (List OperationPtr)) :=
  env.fillFrom 0 ops (List.replicate numWriters [])

end ApplyEnvironment
end Dealing

section Applying

def insertVectorMaxBytes : ℕ := 256 * 1024

def maxBatchCount : ℕ := 64

/-- How many of the next operations can be inserted together with the ones before. -/
def groupLength (batchNamespace : List UInt8) : ℕ → ℕ → List OperationPtr → Except SyncTailError ℕ
  | _, _, [] => .ok 0
  | batchSize, batchCount, next :: rest =>
      match next.1.documentSize with
      | .error e => .error e
      | .ok size =>
          let batchSize := batchSize + size
          let batchCount := batchCount + 1
          if !next.1.isInsert || next.1.ns ≠ batchNamespace || insertVectorMaxBytes < batchSize ||
              maxBatchCount < batchCount then .ok 0
          else (groupLength batchNamespace batchSize batchCount rest).map (· + 1)

/-- One writer thread: its operations, where it is in them, and up to where it does not group. -/
structure Writer where
  ops : List OperationPtr
  it : ℕ
  doNotGroupBeforePoint : ℕ

namespace Writer

/-- Operations on the same namespace come next to each other, in the order they had. -/
def start (ops : List OperationPtr) : Writer :=
  ⟨if 1 < ops.length then ops.mergeSort fun l r => ¬r.1.ns < l.1.ns else ops, 0, 0⟩

def endOfGroupableOps (w : Writer) (entry : OplogEntry) : Except SyncTailError ℕ :=
  match entry.documentSize with
  | .error e => .error e
  | .ok size => (groupLength entry.ns size 1 (w.ops.drop (w.it + 1))).map (w.it + 1 + ·)

/-- Applies the next operation, or the group that starts with it if the storage accepts that. A
group that fails has no effect, and its operations are then applied one by one. -/
def applyNext (w : Writer) (groupSucceeds : Bool) : Option (List OperationPtr × Writer) :=
  match w.ops[w.it]? with
  | none => none
  | some op =>
      let alone : List OperationPtr × Writer := ([op], { w with it := w.it + 1 })
      if op.1.isInsert && !op.1.isForCappedCollection && w.doNotGroupBeforePoint < w.it then
        match w.endOfGroupableOps op.1 with
        | .error _ => none
        | .ok last =>
            if w.it + 1 < last then
              if groupSucceeds then
                some ((w.ops.drop w.it).take (last - w.it), { w with it := last })
              else some ([op], { w with it := w.it + 1, doNotGroupBeforePoint := last - 1 })
            else some alone
      else some alone

end Writer

def SyncTail.applyOps (writerVectors : List (List OperationPtr)) :
    Transition.Threads ℕ Writer OperationPtr :=
  ⟨fun k => .start (writerVectors.getD k []), []⟩

end Applying
end MongoServer
