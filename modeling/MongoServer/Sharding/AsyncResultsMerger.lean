import Mathlib.Data.Fintype.Basic
import Mathlib.Data.List.OfFn
import MongoServer.Base.Status
import MongoServer.Bson.Elements
import MongoServer.Bson.PatternOrder

/-!
The merger of results from the cursors on several remotes. It keeps a buffer for each remote and
asks a remote for its next batch where the buffer is empty. Results are returned in the order of
their sort keys, or else from one remote after another.
-/
namespace MongoServer

/-- What a buffer holds: a document, or the definition of the view that a remote has found. -/
inductive ClusterQueryResult where
  | result (obj : BSONObj)
  | viewDefinition (view : BSONObj)
  deriving Inhabited

def kSortKeyField : List UInt8 := ascii "$sortKey"

def hasSortKey (obj : BSONObj) : Bool :=
  match obj.getField kSortKeyField with
  | some (.object _) => true
  | _ => false

def ClusterQueryResult.sortKey : ClusterQueryResult → BSONObj
  | .result obj => ((obj.getField kSortKeyField).bind BSONValue.object?).getD []
  | .viewDefinition _ => []

structure ClusterClientCursorParams where
  sort : BSONObj
  batchSize : Option ℤ
  isTailable : Bool
  isAllowPartialResults : Bool

def ClusterClientCursorParams.hasSort (params : ClusterClientCursorParams) : Bool :=
  !params.sort.isEmpty

/-- What is sent to a remote: the command that makes a cursor, or a request for more results. -/
inductive RemoteRequest where
  | initial (cmdObj : BSONObj)
  | getMore (cursorId : ℤ) (batchSize : Option ℤ)

/-- A remote; the handle is that of the request whose response is awaited. -/
structure RemoteCursorData where
  initialCmdObj : Option BSONObj
  cursorId : Option ℤ
  docBuffer : List ClusterQueryResult := []
  cbHandle : Option RemoteRequest := none
  status : Option Status := none
  retryCount : ℕ := 0
  fetchedCount : ℤ := 0

namespace RemoteCursorData

variable (remote : RemoteCursorData)

def hasNext : Bool := !remote.docBuffer.isEmpty

def exhausted : Bool := remote.cursorId = some 0

def clearHandle : RemoteCursorData := { remote with cbHandle := none }

end RemoteCursorData

structure CursorResponse where
  cursorId : ℤ
  batch : List BSONObj

/-- The response to a request: what it is parsed to, the document itself, and if the remote's shard
is known, whether it takes the error for one after which the command may be sent again. -/
structure BatchResponse where
  cursorResponse : Except Status CursorResponse
  data : BSONObj
  isRetriableError : Option Bool

/-- What may keep a request from being sent. -/
structure Scheduling where
  resolve : Except Status Unit
  schedule : Except Status Unit

/-- Maximum number of retries for network and replication errors. -/
def kMaxNumFailedHostRetryAttempts : ℕ := 3

/-- The queue holds remotes, each with the result that was first in its buffer when it was put
there. -/
structure AsyncResultsMerger (n : ℕ) where
  remotes : Fin n → RemoteCursorData
  mergeQueue : List (Fin n × ClusterQueryResult) := []
  gettingFromRemote : ℕ := 0
  status : Option Status := none
  currentEvent : Bool := false
  eofNext : Bool := false

namespace AsyncResultsMerger
variable {n : ℕ} (params : ClusterClientCursorParams) (arm : AsyncResultsMerger n) (i : Fin n)
  (remote : RemoteCursorData)

def setRemote : AsyncResultsMerger n :=
  { arm with remotes := Function.update arm.remotes i remote }

section Ready

def established : List RemoteCursorData → Except Status Bool
  | [] => .ok true
  | remote :: rest =>
      match remote.status with
      | some status => .error status
      | none => if remote.cursorId.isNone then .ok false else established rest

def readySorted : Bool :=
  (List.ofFn arm.remotes).all fun remote => remote.hasNext || remote.exhausted

def readyUnsorted : Bool :=
  (List.ofFn arm.remotes).any RemoteCursorData.hasNext ||
    (List.ofFn arm.remotes).all RemoteCursorData.exhausted

/-- Whether the next action needs no remote work; the error of a remote is kept to be reported. -/
def ready : Bool × AsyncResultsMerger n :=
  if arm.eofNext then (true, arm)
  else
    match established (List.ofFn arm.remotes) with
    | .error status => (true, { arm with status := some status })
    | .ok false => (false, arm)
    | .ok true => (if params.hasSort then readySorted arm else readyUnsorted arm, arm)

def signalCurrentEventIfReady : AsyncResultsMerger n :=
  match ready params arm with
  | (true, arm) => { arm with currentEvent := false }
  | (false, arm) => arm

end Ready

section Requests

def sendRequest (request : RemoteRequest)
    (env : Scheduling) : Except Status Unit × AsyncResultsMerger n :=
  match env.schedule with
  | .error status => (.error status, arm.setRemote i remote)
  | .ok () => (.ok (), arm.setRemote i { remote with cbHandle := some request })

/-- What is left of a batch that was not filled, or a whole batch. -/
def adjustedBatchSize (batchSize : Option ℤ) (fetchedCount : ℤ) : Option ℤ :=
  batchSize.map fun size => if size > fetchedCount then size - fetchedCount else size

def askForNextBatch (env : Scheduling) : Except Status Unit × AsyncResultsMerger n :=
  let remote := arm.remotes i
  match remote.cursorId with
  | some cursorId =>
      sendRequest arm i remote
        (.getMore cursorId (adjustedBatchSize params.batchSize remote.fetchedCount)) env
  | none =>
      match env.resolve with
      | .error status => (.error status, arm)
      | .ok () =>
          sendRequest arm i { remote with fetchedCount := 0 }
            (.initial (remote.initialCmdObj.getD [])) env

def needsBatch : Bool :=
  !remote.hasNext && !remote.exhausted && remote.cbHandle.isNone

def scheduleRequests (env : Fin n → Scheduling) :
    List (Fin n) → AsyncResultsMerger n → Except Status Unit × AsyncResultsMerger n
  | [], arm => (.ok (), arm)
  | i :: rest, arm =>
      match (arm.remotes i).status with
      | some status => (.error status, arm)
      | none =>
          if needsBatch (arm.remotes i) then
            match askForNextBatch params arm i (env i) with
            | (.error status, arm) => (.error status, arm)
            | (.ok (), arm) => scheduleRequests env rest arm
          else scheduleRequests env rest arm

def nextEvent (env : Fin n → Scheduling) : Except Status Unit × AsyncResultsMerger n :=
  if arm.currentEvent then
    (.error ⟨ErrorCodes.IllegalOperation,
      "nextEvent() called before an outstanding event was signaled"⟩, arm)
  else
    match scheduleRequests params env (List.finRange n) arm with
    | (.error status, arm) => (.error status, arm)
    | (.ok (), arm) => (.ok (), signalCurrentEventIfReady params { arm with currentEvent := true })

end Requests

section Responses

/-- `parseCursorResponse`, after the response itself has been parsed. -/
def checkCursorId (response : CursorResponse) : Except Status CursorResponse :=
  match remote.cursorId with
  | some cursorId =>
      if response.cursorId ≠ 0 ∧ cursorId ≠ response.cursorId then
        .error ⟨ErrorCodes.BadValue, "Expected cursorid " ++ toString cursorId ++
          " but received " ++ toString response.cursorId⟩
      else .ok response
  | none => .ok response

/-- Buffers a batch up to a document without the sort key that is needed. -/
def bufferBatch : RemoteCursorData → List BSONObj → RemoteCursorData × Bool
  | remote, [] => (remote, true)
  | remote, obj :: rest =>
      if params.hasSort && !hasSortKey obj then
        ({ remote with status := some ⟨ErrorCodes.InternalError,
          "Missing field '$sortKey' in document"⟩ }, false)
      else
        bufferBatch { remote with
          docBuffer := remote.docBuffer ++ [.result obj]
          fetchedCount := remote.fetchedCount + 1 } rest

def pushRemote : AsyncResultsMerger n :=
  match (arm.remotes i).docBuffer with
  | [] => arm
  | front :: _ => { arm with mergeQueue := arm.mergeQueue ++ [(i, front)] }

/-- What asking for a batch right away leaves in the status of the remote. -/
def askRightAway (env : Scheduling) : AsyncResultsMerger n :=
  match askForNextBatch params arm i env with
  | (.error status, arm) => arm.setRemote i { arm.remotes i with status := some status }
  | (.ok (), arm) => arm.setRemote i { arm.remotes i with status := none }

def handleCursorResponse (response : CursorResponse) (env : Scheduling) : AsyncResultsMerger n :=
  match bufferBatch params { remote with cursorId := some response.cursorId, initialCmdObj := none }
      response.batch with
  | (remote, false) => arm.setRemote i remote
  | (remote, true) =>
      let arm := arm.setRemote i remote
      let arm := if params.hasSort && !response.batch.isEmpty then arm.pushRemote i else arm
      let arm := if params.isTailable && !remote.hasNext then { arm with eofNext := true } else arm
      if !params.isTailable && !remote.hasNext && !remote.exhausted then
        askRightAway params arm i env
      else arm

def failRemote (status : Status) : AsyncResultsMerger n :=
  if params.isAllowPartialResults then
    arm.setRemote i { remote with status := none, docBuffer := [], cursorId := some 0 }
  else arm.setRemote i { remote with status := some status }

def handleViewResponse (data : BSONObj) : AsyncResultsMerger n :=
  let failed (reason : String) :=
    arm.setRemote i { remote with status := some ⟨ErrorCodes.InternalError, reason⟩ }
  match data.getField (ascii "resolvedView") with
  | none => failed "Missing field 'resolvedView' in document"
  | some v =>
      match v.embeddedObject?.getD [] with
      | [] => failed "Field 'resolvedView' must be an object"
      | resolvedView =>
          let arm := arm.setRemote i { remote with
            docBuffer := remote.docBuffer ++ [.viewDefinition resolvedView]
            cursorId := some 0
            status := none }
          if params.hasSort then arm.pushRemote i else arm

def handleErrorResponse (status : Status) (response : BatchResponse) : AsyncResultsMerger n :=
  if status.code = ErrorCodes.CommandOnShardedViewNotSupportedOnMongod then
    handleViewResponse params arm i remote response.data
  else
    match response.isRetriableError with
    | none => failRemote params arm i remote ⟨status.code, "Could not find shard"⟩
    | some retriable =>
        -- only the establishment of a cursor is retried, since a batch could be lost otherwise
        if remote.cursorId.isNone && remote.retryCount < kMaxNumFailedHostRetryAttempts &&
            retriable then
          { arm.setRemote i { remote with retryCount := remote.retryCount + 1, status := none } with
            currentEvent := false }
        else if status.code = ErrorCodes.CallbackCanceled then
          failRemote params arm i remote ⟨ErrorCodes.ShutdownInProgress, "shutdown in progress"⟩
        else failRemote params arm i remote status

def handleBatchResponse (response : BatchResponse) (env : Scheduling) : AsyncResultsMerger n :=
  signalCurrentEventIfReady params
    (match response.cursorResponse.bind (checkCursorId (arm.remotes i).clearHandle) with
    | .error status => handleErrorResponse params arm i (arm.remotes i).clearHandle status response
    | .ok cursorResponse =>
        handleCursorResponse params arm i (arm.remotes i).clearHandle cursorResponse env)

end Responses

section NextReady

/-- The remotes are compared by what is first in their buffers now. -/
def mergingComparator (lhs rhs : Fin n) : Bool :=
  let key (i : Fin n) := ((arm.remotes i).docBuffer.head?.map ClusterQueryResult.sortKey).getD []
  0 < woCompareBy params.sort (key lhs) (key rhs)

/-- What is first in the buffers of queued remotes has not changed since they were queued. -/
def QueueStable : Prop :=
  ∀ entry ∈ arm.mergeQueue, (arm.remotes entry.1).docBuffer.head? = some entry.2

/-- The top of the priority queue is one of its elements, and as long as their order has not changed
none is before it. -/
def IsTop (top : Fin n) : Prop :=
  top ∈ arm.mergeQueue.map Prod.fst ∧
    (arm.QueueStable → ∀ entry ∈ arm.mergeQueue, mergingComparator params arm top entry.1 = false)

/-- The top is removed from the queue and put back if its buffer goes on. -/
def popSorted (top : Fin n) (rest : List ClusterQueryResult) : AsyncResultsMerger n :=
  let arm := { arm.setRemote top { arm.remotes top with docBuffer := rest } with
    mergeQueue := arm.mergeQueue.eraseP fun entry => entry.1 = top }
  arm.pushRemote top

/-- The loop of `nextReadyUnsorted`, with the number of remotes still to be tried. -/
def nextReadyUnsorted : ℕ → AsyncResultsMerger n →
    Option (Fin n × ClusterQueryResult) × AsyncResultsMerger n
  | 0, arm => (none, arm)
  | attempts + 1, arm =>
      if h : arm.gettingFromRemote < n then
        let i : Fin n := ⟨arm.gettingFromRemote, h⟩
        match (arm.remotes i).docBuffer with
        | front :: rest =>
            (some (i, front), { arm.setRemote i { arm.remotes i with docBuffer := rest } with
              eofNext := arm.eofNext || (params.isTailable && rest.isEmpty) })
        | [] => nextReadyUnsorted attempts { arm with
            gettingFromRemote :=
              if arm.gettingFromRemote + 1 = n then 0 else arm.gettingFromRemote + 1 }
      else (none, arm)

/-- The outcomes of `nextReady`: an error, the end, or a result with the remote it comes from. -/
inductive NextReady : Except Status (Option (Fin n × ClusterQueryResult)) → AsyncResultsMerger n →
    Prop
  | failed {status : Status} (h : arm.status = some status) : NextReady (.error status) arm
  | endOfBatch (hok : arm.status = none) (heof : arm.eofNext = true) :
      NextReady (.ok none) { arm with eofNext := false }
  | sortedEnd (hok : arm.status = none) (heof : arm.eofNext = false) (hsort : params.hasSort = true)
      (hempty : arm.mergeQueue = []) : NextReady (.ok none) arm
  | sorted (hok : arm.status = none) (heof : arm.eofNext = false) (hsort : params.hasSort = true)
      {top : Fin n} (htop : IsTop params arm top) {front : ClusterQueryResult}
      {rest : List ClusterQueryResult} (hfront : (arm.remotes top).docBuffer = front :: rest) :
      NextReady (.ok (some (top, front))) (popSorted arm top rest)
  | unsorted (hok : arm.status = none) (heof : arm.eofNext = false)
      (hsort : params.hasSort = false) :
      NextReady (.ok (nextReadyUnsorted params n arm).1) (nextReadyUnsorted params n arm).2

end NextReady

end AsyncResultsMerger
end MongoServer
