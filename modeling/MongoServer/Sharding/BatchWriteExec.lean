import MongoServer.Sharding.BatchWriteOp

/-!
The rounds in which a batch of writes is executed. A round targets the writes that are ready,
sends the batches to their shards, at most one at a time to a host, and hands every response
back; it ends when all batches are answered. The host of a batch may not be found, a response
may be lost, and responses come in any order.
-/
namespace MongoServer

def buildErrorFrom (status : Status) : WriteErrorDetail := ⟨status.code, 0, status.reason⟩

namespace BatchWriteExec

inductive Phase where
  | targeting | sending | done
  deriving DecidableEq

/-- A batch when it was sent, with all batches of its round and the states of the writes. -/
structure SentBatch where
  batch : TargetedWriteBatch
  round : List TargetedWriteBatch
  states : List WriteOpState

structure State where
  batchOp : BatchWriteOp
  phase : Phase
  refreshedTargeter : Bool
  /-- The batches that are not sent yet, and those that wait for a response, by host. -/
  childBatches : List TargetedWriteBatch
  pendingBatches : List (String × TargetedWriteBatch)
  rounds : ℕ
  numCompletedOps : ℕ
  numRoundsWithoutProgress : ℕ
  /-- What happened so far; no function reads it. -/
  round : List TargetedWriteBatch
  lastTargeting : ℕ → List ShardEndpoint
  sent : List SentBatch
  acknowledged : List (ℕ × String)

inductive Action where
  | targetBatch (targeter : NSTargeter)
  | hostNotFound (batch : ℕ) (status : Status)
  | send (batch : ℕ) (host : String)
  | receive (pending : ℕ) (response : BatchedCommandResponse)
  | receiveFailed (pending : ℕ) (status : Status)
  | endRound (targeterChanged : Bool)

def kMaxRoundsWithoutProgress : ℕ := 5

def targeting (writeOps : List WriteOp) (before : ℕ → List ShardEndpoint) (i : ℕ) :
    List ShardEndpoint :=
  match writeOps[i]? with
  | some op =>
      if op.state = .pending then
        op.childOps.filterMap fun child => child.pendingWrite.map TargetedWrite.endpoint
      else before i
  | none => before i

/-- The writes a shard applied: all without an error, up to the first error if ordered. -/
def applied (ordered : Bool) (errDetails : List WriteErrorDetail) :
    ℕ → List TargetedWrite → List TargetedWrite
  | _, [] => []
  | index, write :: rest =>
      if errDetails.any fun error => error.index = index then
        if ordered then [] else applied ordered errDetails (index + 1) rest
      else write :: applied ordered errDetails (index + 1) rest

/-- The pairs of operation and shard that a response acknowledges. -/
def acknowledges (ordered : Bool) (batch : TargetedWriteBatch) (response : BatchedCommandResponse) :
    List (ℕ × String) :=
  if response.ok then
    (applied ordered response.errDetails 0 batch.writes).map fun write =>
      (write.writeOpRef.1, write.endpoint.shardName)
  else []

/-- The rounds without progress, counted at the end of a round. -/
def roundsWithoutProgress (s : State) (targeterChanged : Bool) : ℕ :=
  if s.batchOp.numWriteOpsIn .completed = s.numCompletedOps ∧ !targeterChanged then
    s.numRoundsWithoutProgress + 1
  else 0

def noProgressMade (s : State) : WriteErrorDetail :=
  buildErrorFrom ⟨ErrorCodes.NoProgressMade,
    "no progress was made executing batch write op in " ++ s.batchOp.clientRequest.nss.ns ++
      " after " ++ toString kMaxRoundsWithoutProgress ++ " rounds (" ++
      toString s.numCompletedOps ++ " ops completed in " ++ toString s.rounds ++ " rounds total)"⟩

def nextRound (s : State) (targeterChanged : Bool) : State :=
  let s := { s with rounds := s.rounds + 1 }
  if s.batchOp.isFinished then { s with phase := .done }
  else
    let s := { s with
      numRoundsWithoutProgress := roundsWithoutProgress s targeterChanged
      numCompletedOps := s.batchOp.numWriteOpsIn .completed }
    if kMaxRoundsWithoutProgress < s.numRoundsWithoutProgress then
      { s with batchOp := s.batchOp.abortBatch (noProgressMade s), phase := .done }
    else { s with phase := .targeting }

def step (s : State) : Action → Option State
  | .targetBatch targeter =>
      if s.phase = .targeting then
        let result := s.batchOp.targetBatch targeter s.refreshedTargeter
        some { s with
          batchOp := { s.batchOp with writeOps := result.writeOps }
          phase := .sending
          refreshedTargeter := s.refreshedTargeter || result.status.isSome
          childBatches := result.batches
          round := result.batches
          lastTargeting := targeting result.writeOps s.lastTargeting }
      else none
  | .hostNotFound i status => do
      let batch ← s.childBatches[i]?
      let batchOp ← s.batchOp.noteBatchError batch (buildErrorFrom status)
      return { s with batchOp := batchOp, childBatches := s.childBatches.eraseIdx i }
  | .send i host => do
      let batch ← s.childBatches[i]?
      if s.pendingBatches.any fun pending => pending.1 = host then none
      else
        return { s with
          childBatches := s.childBatches.eraseIdx i
          pendingBatches := s.pendingBatches ++ [(host, batch)]
          sent := s.sent ++ [⟨batch, s.round, s.batchOp.writeOps.map WriteOp.state⟩] }
  | .receive i response => do
      let (_, batch) ← s.pendingBatches[i]?
      let batchOp ← s.batchOp.noteBatchResponse batch response
      return { s with
        batchOp := batchOp
        pendingBatches := s.pendingBatches.eraseIdx i
        acknowledged := s.acknowledged ++
          acknowledges s.batchOp.clientRequest.ordered batch response }
  | .receiveFailed i status => do
      let (_, batch) ← s.pendingBatches[i]?
      let batchOp ← s.batchOp.noteBatchError batch (buildErrorFrom status)
      return { s with batchOp := batchOp, pendingBatches := s.pendingBatches.eraseIdx i }
  | .endRound targeterChanged =>
      if s.phase = .sending ∧ s.childBatches.isEmpty ∧ s.pendingBatches.isEmpty then
        some (nextRound s targeterChanged)
      else none

def init (request : BatchedCommandRequest) : State where
  batchOp := .initClientRequest request
  phase := if (BatchWriteOp.initClientRequest request).isFinished then .done else .targeting
  refreshedTargeter := false
  childBatches := []
  pendingBatches := []
  rounds := 0
  numCompletedOps := 0
  numRoundsWithoutProgress := 0
  round := []
  lastTargeting _ := []
  sent := []
  acknowledged := []

end BatchWriteExec
end MongoServer
